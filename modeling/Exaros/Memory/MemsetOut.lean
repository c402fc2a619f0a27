import Exaros.Memory.Transfer

/-!
# Setting a range of a process

`memsetOut` takes the address to store to from what it calls. `passiveAlloc` returns an address in the page it has
brought in, `cowHandler` one in the page that was copied: at a copy-on-write page the bytes go to the page that the
process has just left, and its copy keeps what was there.
-/

namespace Exaros

/-- Where a turn of `memsetOut` stores to, after it has made the page of `dst` accessible. -/
def memsetPage (segs : List SegmentMap) (data : Idx → BitVec 64) (pgdir : Ppn) (dst : Nat) (m : Mem) :
    Except Panic (Nat × Mem) :=
  match va2PA pgdir dst m with
  | none => passiveAlloc segs data pgdir dst m
  | some (_, true) => cowHandler pgdir dst m
  | some (pa0, false) => .ok (pa0, m)

/-- The loop of `memsetOut`. -/
def memsetOutLoop (segs : List SegmentMap) (data : Nat → Idx → BitVec 64) (pgdir : Ppn) (value : UInt8) :
    Nat → Nat → Nat → Mem → Except Panic Mem
  | _, _, 0, m => .ok m
  | 0, _, _ + 1, _ => .error .endless
  | fuel + 1, dst, len + 1, m => do
    let (pa0, m) ← memsetPage segs (data (alignDown dst)) pgdir dst m
    let n := min (PAGE_SIZE - (dst - alignDown dst)) (len + 1)
    memsetOutLoop segs data pgdir value fuel (u64 (alignDown dst + PAGE_SIZE)) (len + 1 - n)
      (storeBytes pa0 (List.replicate n value) m)

/-- `memsetOut`: each turn sets a byte at least. -/
def memsetOut (segs : List SegmentMap) (data : Nat → Idx → BitVec 64) (pgdir : Ppn) (dst : Nat) (value : UInt8) (len : Nat)
    (m : Mem) : Except Panic Mem :=
  memsetOutLoop segs data pgdir value len dst len m

/-- A byte of the range is the one `d'` has at `a`; if the page of `a` is copied on the way, a byte before that page. -/
def Lands (m : Mem) (d : Ppn) (dst len : Nat) (d' : Ppn) (a : Nat) : Prop :=
  ∃ b, dst ≤ b ∧ b < dst + len ∧ ∃ e e', view m d (vpn b) = some e ∧ view m d' (vpn a) = some e' ∧
    pteHas e' PTE_USER_BIT = true ∧ pte2Ppn e' = pte2Ppn e ∧ vaOffset a = vaOffset b ∧
    (d' = d → pteHas e' PTE_COW_BIT = true → (∃ c, dst ≤ c ∧ c < dst + len ∧ vpn c = vpn a) → b < alignDown a)

/-- What `memsetOut` sets: the bytes of its range where there was no page, and those it lands on. -/
def Sets (m : Mem) (d : Ppn) (dst len : Nat) (d' : Ppn) (a : Nat) : Prop :=
  (d' = d ∧ view m d (vpn a) = none ∧ dst ≤ a ∧ a < dst + len) ∨ Lands m d dst len d' a

/-- What the turn at `dst` sets, of `n` bytes. -/
def SetsNow (m : Mem) (d : Ppn) (dst n : Nat) (d' : Ppn) (a : Nat) : Prop :=
  (d' = d ∧ view m d (vpn a) = none ∧ dst ≤ a ∧ a < dst + n) ∨
  ∃ b, dst ≤ b ∧ b < dst + n ∧ ∃ e e', view m d (vpn b) = some e ∧ view m d' (vpn a) = some e' ∧
    pteHas e' PTE_USER_BIT = true ∧ pte2Ppn e' = pte2Ppn e ∧ vaOffset a = vaOffset b ∧
    (d' = d → pteHas e' PTE_COW_BIT = true → vpn a ≠ vpn dst)

section Turn

variable {img : Image} {dirs : Finset Ppn} {segs : Ppn → List SegmentMap} {pages : Ppn → Nat → Idx → BitVec 64}
  {m m₁ m₂ m' : Mem} {d d' : Ppn} {dst len a fuel : Nat} {e e₁ : Pte} {q : Ppn} {value : UInt8}

/-- How a turn finds its page `q`: mapped there before and after, brought in, or mapped there before it was copied. -/
inductive Source (m m₁ : Mem) (d : Ppn) (v : Vpn) (e : Pte) (q : Ppn) : Prop where
  | mapped (same : m₁ = m) (old : view m d v = some e) (page : q = pte2Ppn e)
  | loaded (old : view m d v = none) (page : q = pte2Ppn e)
  | copied (e₀ : Pte) (old : view m d v = some e₀) (cow : pteHas e₀ PTE_COW_BIT = true) (page : q = pte2Ppn e₀)
      (fresh : pte2Ppn e ≠ q)

variable (segs pages) in
/-- What `memsetPage` does at a page the process may write. -/
theorem MemInv.memsetPage_ok (h : MemInv img m dirs) (hd : d ∈ dirs) (hdst : dst < VA_MAX)
    (hacc : Accessible (segs d) m d dst)
    (hmem : (∃ e, view m d (vpn dst) = some e ∧ pteHas e PTE_COW_BIT = false) ∨ 3 ≤ m.freePageList.length) :
    ∃ m₁ e q, memsetPage (segs d) (pages d (alignDown dst)) d dst m = .ok (q <<< PAGE_SHIFT + vaOffset dst, m₁) ∧
      Ready img dirs segs pages d dst e m m₁ ∧ Source m m₁ d (vpn dst) e q ∧ ¬ IsTable m₁ dirs q := by
  unfold memsetPage
  rcases hacc with ⟨e, hv, hu⟩ | ⟨hv, hl⟩
  · have hva2PA := va2PA_of_view hdst hv hu
    cases hcow : pteHas e PTE_COW_BIT with
    | false =>
      rw [hcow] at hva2PA
      exact ⟨m, e, pte2Ppn e, by rw [hva2PA], h.ready_refl hv hu hcow, .mapped rfl hv rfl, (h.leaf d hd _ e hv).2.1⟩
    | true =>
      rw [hcow] at hva2PA
      have hmem' : 3 ≤ m.freePageList.length := hmem.resolve_left fun ⟨e', hv', hp⟩ => by
        obtain rfl := Option.some.inj (hv.symm.trans hv')
        rw [hcow] at hp
        cases hp
      obtain ⟨m₁, y, hok, hc, hr⟩ := h.ready_cowHandler segs pages hd hv hu hcow (by omega)
      have hfresh : pte2Ppn (touchPte y (cowPerm e)) ≠ pte2Ppn e := by
        rw [pte2Ppn_touchPte (h.free y hc.mem).1.managed (permOk_cowPerm e)]
        exact fun heq => h.not_free_of_view hd hv (heq ▸ hc.mem)
      refine ⟨m₁, _, pte2Ppn e, by rw [hva2PA, hok], hr, .copied e hv hcow rfl hfresh, fun ht => ?_⟩
      rcases hc.isTable _ ht with ht | ⟨hf, -⟩
      · exact (h.leaf d hd _ e hv).2.1 ht
      · exact h.not_free_of_view hd hv hf
  · have hmem' : 3 ≤ m.freePageList.length := hmem.resolve_left fun ⟨e', hv', hp⟩ => by
      rw [hv] at hv'
      cases hv'
    have hnone : va2PA d dst m = none := va2PA_eq_none hv
    obtain ⟨pa, m₁, e, hok, hr, rfl⟩ := h.ready_passiveAlloc segs pages hd hdst hv hl hmem'
    exact ⟨m₁, e, pte2Ppn e, by rw [hnone, hok], hr, .loaded hv rfl, (hr.inv.leaf d hd _ e hr.self).2.1⟩

/-- What one turn stores. -/
def setBytes (m₁ : Mem) (q : Ppn) (dst len : Nat) (value : UInt8) : Mem :=
  storeBytes (q <<< PAGE_SHIFT + vaOffset dst) (List.replicate (chunk dst len) value) m₁

theorem memsetOutLoop_zero (segs : List SegmentMap) (data : Nat → Idx → BitVec 64) (value : UInt8) (fuel dst : Nat) :
    memsetOutLoop segs data d value fuel dst 0 m = .ok m := by
  cases fuel <;> rfl

/-- One turn of `memsetOut`. -/
theorem memsetOutLoop_turn (hpos : 0 < len) (hrange : dst + len ≤ VA_MAX)
    (hpage : memsetPage (segs d) (pages d (alignDown dst)) d dst m = .ok (q <<< PAGE_SHIFT + vaOffset dst, m₁)) :
    memsetOutLoop (segs d) (pages d) d value (fuel + 1) dst len m =
      memsetOutLoop (segs d) (pages d) d value fuel (dst + chunk dst len) (len - chunk dst len)
        (setBytes m₁ q dst len value) := by
  cases len with
  | zero => cases hpos
  | succ len =>
    rw [memsetOutLoop, hpage, Loop.ok_bind]
    dsimp only
    have hn : min (PAGE_SIZE - (dst - alignDown dst)) (len + 1) = chunk dst (len + 1) := by
      unfold chunk alignDown PAGE_SIZE
      omega
    rw [hn]
    by_cases hend : len + 1 - chunk dst (len + 1) = 0
    · rw [hend, memsetOutLoop_zero, memsetOutLoop_zero]
      rfl
    · have hnext : u64 (alignDown dst + PAGE_SIZE) = dst + chunk dst (len + 1) := by
        have hmax : VA_MAX = 2 ^ 38 := by decide
        unfold u64
        unfold chunk alignDown PAGE_SIZE at *
        omega
      rw [hnext]
      rfl

/-- The page stored to is no table. -/
theorem Ready.setBytes (r : Ready img dirs segs pages d dst e m m₁) (hnt : ¬ IsTable m₁ dirs q) (len : Nat) (value : UInt8) :
    MemInv img (Exaros.setBytes m₁ q dst len value) dirs ∧
      ∀ d' ∈ dirs, ∀ v, view (Exaros.setBytes m₁ q dst len value) d' v = view m₁ d' v := by
  have hoff : vaOffset dst < PAGE_SIZE := Nat.mod_lt _ (by decide)
  have hnt' : ¬ IsTable m₁ dirs ((q <<< PAGE_SHIFT + vaOffset dst) / PAGE_SIZE) := by rwa [page_add_div hoff]
  have hfit : (q <<< PAGE_SHIFT + vaOffset dst) % PAGE_SIZE + (List.replicate (chunk dst len) value).length ≤ PAGE_SIZE := by
    rw [page_add_mod hoff, List.length_replicate]
    exact vaOffset_chunk ..
  have hkept : Kept img dirs m₁ (Exaros.setBytes m₁ q dst len value) := kept_storeBytes hnt' hfit
  exact ⟨hkept.inv r.inv, fun d' hd' v => view_storeBytes hnt' hfit hd' v⟩

/-- The bytes a turn sets have the value. -/
theorem Ready.setBytes_of_sets (r : Ready img dirs segs pages d dst e m m₁) (hs : Source m m₁ d (vpn dst) e q)
    (hnt : ¬ IsTable m₁ dirs q) (hd' : d' ∈ dirs) (hset : SetsNow m d dst (chunk dst len) d' a) :
    spaceByte segs pages (Exaros.setBytes m₁ q dst len value) d' a = some value := by
  suffices hin : ∃ e', view m₁ d' (vpn a) = some e' ∧ pteHas e' PTE_USER_BIT = true ∧ pte2Ppn e' = q ∧
      ∃ i, i < chunk dst len ∧ vaOffset a = vaOffset dst + i by
    obtain ⟨e', hv, hu, hp, i, hi, hoff⟩ := hin
    have hlen : i < (List.replicate (chunk dst len) value).length := by rwa [List.length_replicate]
    have hat : spaceByte segs pages (Exaros.setBytes m₁ q dst len value) d' a = some (List.replicate (chunk dst len) value)[i] :=
      spaceByte_storeBytes_at hlen (((r.setBytes hnt len value).2 d' hd' _).trans hv) hu hp hoff
    rw [hat, List.getElem_replicate]
  have hpage : ∀ b, dst ≤ b → b < dst + chunk dst len → vpn b = vpn dst ∧ ∃ i, i < chunk dst len ∧ vaOffset b = vaOffset dst + i := by
    intro b hlo hhi
    obtain ⟨i, rfl⟩ : ∃ i, b = dst + i := ⟨b - dst, by omega⟩
    have hi : i < chunk dst len := by omega
    exact ⟨vpn_congr (chunk_page hi), i, hi, vaOffset_add hi⟩
  rcases hset with ⟨rfl, hnone, hlo, hhi⟩ | ⟨b, hlo, hhi, e₁, e', hv, hv', hu, hsame, hoff, hcow⟩
  · obtain ⟨hvpn, hi⟩ := hpage a hlo hhi
    rw [hvpn] at hnone ⊢
    cases hs with
    | mapped _ old _ =>
      rw [hnone] at old
      cases old
    | loaded _ page => exact ⟨e, r.self, r.user, page.symm, hi⟩
    | copied e₀ old =>
      rw [hnone] at old
      cases old
  · obtain ⟨hvpn, hi⟩ := hpage b hlo hhi
    rw [hvpn] at hv
    rw [← hoff] at hi
    by_cases heq : d' = d ∧ vpn a = vpn dst
    · obtain ⟨rfl, ha⟩ := heq
      rw [ha] at hv' ⊢
      cases hs with
      | mapped same old page =>
        subst same
        exact ⟨e', hv', hu, by rw [page, hsame, Option.some.inj (hv.symm.trans old)], hi⟩
      | loaded old =>
        rw [hv] at old
        cases old
      | copied e₀ old cow =>
        obtain rfl := Option.some.inj (hv'.symm.trans old)
        exact absurd ha (hcow rfl cow)
    · refine ⟨e', (r.off d' hd' _ heq).trans hv', hu, hsame.trans ?_, hi⟩
      cases hs with
      | mapped _ old page => rw [page, Option.some.inj (hv.symm.trans old)]
      | loaded old =>
        rw [hv] at old
        cases old
      | copied e₀ old _ page => rw [page, Option.some.inj (hv.symm.trans old)]

/-- The others are what they were. -/
theorem Ready.setBytes_of_not_sets (r : Ready img dirs segs pages d dst e m m₁) (hs : Source m m₁ d (vpn dst) e q)
    (hnt : ¬ IsTable m₁ dirs q) (hd' : d' ∈ dirs) (hdst : dst < VA_MAX) (ha : a < VA_MAX)
    (hset : ¬ SetsNow m d dst (chunk dst len) d' a) :
    spaceByte segs pages (Exaros.setBytes m₁ q dst len value) d' a = spaceByte segs pages m d' a := by
  rw [← r.byte d' hd' a ha]
  refine spaceByte_storeBytes_off ?_ ((r.setBytes hnt len value).2 d' hd' _) fun e' hv' hu' hp hin => hset ?_
  · rw [List.length_replicate]
    exact vaOffset_chunk ..
  rw [List.length_replicate] at hin
  obtain ⟨i, hi⟩ : ∃ i, vaOffset a = vaOffset dst + i := ⟨vaOffset a - vaOffset dst, by omega⟩
  have hi' : i < chunk dst len := by omega
  have hoff : vaOffset a = vaOffset (dst + i) := by rw [hi, vaOffset_add hi']
  have hvpn : vpn (dst + i) = vpn dst := vpn_congr (chunk_page hi')
  cases hs with
  | mapped same old page =>
    subst same
    refine .inr ⟨dst + i, by omega, by omega, e, e', hvpn ▸ old, hv', hu', hp.trans page, hoff, fun hd hcow hpage => ?_⟩
    subst hd
    rw [hpage, old] at hv'
    cases hv'
    rw [r.plain] at hcow
    cases hcow
  | loaded old page =>
    have heq : d' = d ∧ vpn a = vpn dst := by
      by_contra hne
      rcases r.own with hm | ⟨hown, -⟩
      · rw [← hm, r.self] at old
        cases old
      · exact hown d' hd' _ e' hne hv' (hp.trans page)
    obtain ⟨hlo, hhi⟩ := eq_of_chunk ((vpn_eq_iff ha hdst).mp heq.2) hin.1 hin.2
    exact .inl ⟨heq.1, heq.2 ▸ old, hlo, hhi⟩
  | copied e₀ old cow page fresh =>
    have hne : ¬ (d' = d ∧ vpn a = vpn dst) := fun heq => by
      obtain ⟨rfl, hpage⟩ := heq
      rw [hpage, r.self] at hv'
      cases hv'
      exact fresh hp
    rw [r.off d' hd' _ hne] at hv'
    exact .inr ⟨dst + i, by omega, by omega, e₀, e', hvpn ▸ old, hv', hu', hp.trans page, hoff, fun hd _ hpage => hne ⟨hd, hpage⟩⟩

/-- An address of the range off the page of `dst` is met in a later turn, on a later page. -/
theorem later_of_vpn_ne {c : Nat} (hrange : dst + len ≤ VA_MAX) (ha : a < VA_MAX) (hlo : dst ≤ c) (hhi : c < dst + len)
    (hc : vpn c = vpn a) (hne : vpn a ≠ vpn dst) : dst + chunk dst len ≤ c ∧ dst + chunk dst len ≤ alignDown a := by
  have hlate : dst + chunk dst len ≤ c := by
    by_contra hlt
    obtain ⟨i, rfl⟩ : ∃ i, c = dst + i := ⟨c - dst, by omega⟩
    have hi : i < chunk dst len := by omega
    exact hne (hc.symm.trans (vpn_congr (chunk_page hi)))
  have hdiv := (vpn_eq_iff (by omega) ha).mp hc
  unfold chunk alignDown PAGE_SIZE at *
  omega

/-- What the loop sets, the first turn or the later ones set. -/
theorem Ready.sets_split (r : Ready img dirs segs pages d dst e m m₁) (hs : Source m m₁ d (vpn dst) e q) (hd : d ∈ dirs)
    (hd' : d' ∈ dirs) (hrange : dst + len ≤ VA_MAX) (hpos : 0 < len) (ha : a < VA_MAX)
    (hview : ∀ d' ∈ dirs, ∀ v, view m₂ d' v = view m₁ d' v) (hset : Sets m d dst len d' a) :
    SetsNow m d dst (chunk dst len) d' a ∨ Sets m₂ d (dst + chunk dst len) (len - chunk dst len) d' a := by
  rcases hset with ⟨rfl, hnone, hlo, hhi⟩ | ⟨b, hlo, hhi, e₁, e', hv, hv', hu, hsame, hoff, hcow⟩
  · by_cases hnow : a < dst + chunk dst len
    · exact .inl (.inl ⟨rfl, hnone, hlo, hnow⟩)
    · refine .inr (.inl ⟨rfl, ?_, by omega, by omega⟩)
      rw [hview _ hd, (r.view_rest hd hrange (by omega) hhi).2, hnone]
  · have hbefore : vpn a = vpn dst → alignDown a ≤ dst := fun hpage => by
      rw [alignDown_congr ((vpn_eq_iff ha (by omega)).mp hpage)]
      exact Nat.sub_le ..
    by_cases hnow : b < dst + chunk dst len
    · refine .inl (.inr ⟨b, hlo, hnow, e₁, e', hv, hv', hu, hsame, hoff, fun hdd hc hpage => ?_⟩)
      have := hcow hdd hc ⟨dst, Nat.le_refl _, by omega, hpage.symm⟩
      have := hbefore hpage
      omega
    · refine .inr (.inr ⟨b, by omega, by omega, e₁, e', ?_, ?_, hu, hsame, hoff, fun hdd hc ⟨c, hclo, hchi, hcv⟩ =>
        hcow hdd hc ⟨c, by omega, by omega, hcv⟩⟩)
      · rw [hview _ hd, (r.view_rest hd hrange (by omega) hhi).2, hv]
      · rw [hview _ hd']
        by_cases heq : d' = d ∧ vpn a = vpn dst
        · obtain ⟨rfl, hpage⟩ := heq
          cases hs with
          | mapped same => rw [same, hv']
          | loaded old =>
            rw [hpage, old] at hv'
            cases hv'
          | copied e₀ old cow =>
            rw [hpage, old] at hv'
            cases hv'
            have := hcow rfl cow ⟨dst, Nat.le_refl _, by omega, hpage.symm⟩
            have := hbefore hpage
            omega
        · rw [r.off d' hd' _ heq, hv']

theorem sets_of_now (hrange : dst + len ≤ VA_MAX) (ha : a < VA_MAX) (hset : SetsNow m d dst (chunk dst len) d' a) :
    Sets m d dst len d' a := by
  have hle := chunk_le dst len
  rcases hset with ⟨rfl, hnone, hlo, hhi⟩ | ⟨b, hlo, hhi, e₁, e', hv, hv', hu, hsame, hoff, hcow⟩
  · exact .inl ⟨rfl, hnone, hlo, by omega⟩
  · refine .inr ⟨b, hlo, by omega, e₁, e', hv, hv', hu, hsame, hoff, fun hdd hc ⟨c, hclo, hchi, hcv⟩ => ?_⟩
    have := (later_of_vpn_ne hrange ha hclo hchi hcv (hcow hdd hc)).2
    omega

theorem Ready.sets_later (r : Ready img dirs segs pages d dst e m m₁) (hd : d ∈ dirs) (hd' : d' ∈ dirs)
    (hrange : dst + len ≤ VA_MAX) (ha : a < VA_MAX) (hview : ∀ d' ∈ dirs, ∀ v, view m₂ d' v = view m₁ d' v)
    (hset : Sets m₂ d (dst + chunk dst len) (len - chunk dst len) d' a) : Sets m d dst len d' a := by
  rcases hset with ⟨rfl, hnone, hlo, hhi⟩ | ⟨b, hlo, hhi, e₁, e', hv, hv', hu, hsame, hoff, hcow⟩
  · refine .inl ⟨rfl, ?_, by omega, by omega⟩
    rwa [hview _ hd, (r.view_rest hd hrange hlo (by omega)).2] at hnone
  · obtain ⟨hne, hrest⟩ := r.view_rest hd hrange hlo (by omega)
    rw [hview _ hd] at hv
    rw [hview _ hd'] at hv'
    by_cases heq : d' = d ∧ vpn a = vpn dst
    · obtain ⟨rfl, hpage⟩ := heq
      rw [hpage, r.self] at hv'
      cases hv'
      rcases r.own with hm | ⟨hown, -⟩
      · refine .inr ⟨b, by omega, by omega, e₁, e, hrest ▸ hv, ?_, hu, hsame, hoff, fun _ hc => ?_⟩
        · rw [hpage, ← hm, r.self]
        · rw [r.plain] at hc
          cases hc
      · exact absurd hsame.symm (hown _ hd (vpn b) e₁ (fun hc => hne hc.2) hv)
    · refine .inr ⟨b, by omega, by omega, e₁, e', hrest ▸ hv, (r.off d' hd' _ heq).symm.trans hv', hu, hsame, hoff,
        fun hdd hc ⟨c, hclo, hchi, hcv⟩ => ?_⟩
      have hlater := (later_of_vpn_ne hrange ha hclo hchi hcv fun hpage => heq ⟨hdd, hpage⟩).1
      exact hcow hdd hc ⟨c, hlater, by omega, hcv⟩

variable (segs pages) in
/-- **`memsetOut`** sets the bytes of `Sets` and no others. -/
theorem MemInv.memsetOutLoop (h : MemInv img m dirs) (hd : d ∈ dirs) (hrange : dst + len ≤ VA_MAX)
    (hacc : ∀ a, dst ≤ a → a < dst + len → Accessible (segs d) m d a) (hmem : Enough m d dst len) (hfuel : len ≤ fuel)
    (value : UInt8) :
    ∃ m', Exaros.memsetOutLoop (segs d) (pages d) d value fuel dst len m = .ok m' ∧
      ∀ d' ∈ dirs, ∀ a < VA_MAX,
        (Sets m d dst len d' a → spaceByte segs pages m' d' a = some value) ∧
        (¬ Sets m d dst len d' a → spaceByte segs pages m' d' a = spaceByte segs pages m d' a) := by
  induction fuel generalizing dst len m with
  | zero =>
    obtain rfl : len = 0 := by omega
    refine ⟨m, memsetOutLoop_zero .., fun d' _ a _ => ⟨fun hset => ?_, fun _ => rfl⟩⟩
    rcases hset with ⟨-, -, hlo, hhi⟩ | ⟨b, hlo, hhi, -⟩ <;> omega
  | succ fuel ih =>
    rcases Nat.eq_zero_or_pos len with rfl | hpos
    · refine ⟨m, memsetOutLoop_zero .., fun d' _ a _ => ⟨fun hset => ?_, fun _ => rfl⟩⟩
      rcases hset with ⟨-, -, hlo, hhi⟩ | ⟨b, hlo, hhi, -⟩ <;> omega
    have hle := chunk_le dst len
    have hchunk := chunk_pos dst hpos
    obtain ⟨m₁, e, q, hpage, r, hs, hnt⟩ := h.memsetPage_ok segs pages hd (by omega : dst < VA_MAX)
      (hacc dst (Nat.le_refl _) (by omega)) (hmem.first hpos)
    obtain ⟨hinv₂, hview₂⟩ := r.setBytes hnt len value
    have hacc₂ : ∀ a, dst + chunk dst len ≤ a → a < dst + chunk dst len + (len - chunk dst len) →
        Accessible (segs d) (setBytes m₁ q dst len value) d a := fun a hlo hhi =>
      r.accessible hd hrange hacc (hview₂ d hd) hlo hhi
    have hmem₂ : Enough (setBytes m₁ q dst len value) d (dst + chunk dst len) (len - chunk dst len) :=
      r.enough hd hrange hpos hmem (hview₂ d hd) (freePageList_storeBytes _ _)
    obtain ⟨m', hrun, hbytes⟩ := ih hinv₂ (by omega) hacc₂ hmem₂ (by omega)
    refine ⟨m', (memsetOutLoop_turn hpos hrange hpage).trans hrun, fun d' hd' a ha => ⟨fun hset => ?_, fun hset => ?_⟩⟩
    · obtain ⟨hlater, hkept⟩ := hbytes d' hd' a ha
      by_cases hrest : Sets (setBytes m₁ q dst len value) d (dst + chunk dst len) (len - chunk dst len) d' a
      · exact hlater hrest
      · have hnow := (r.sets_split hs hd hd' hrange hpos ha hview₂ hset).resolve_right hrest
        rw [hkept hrest, r.setBytes_of_sets hs hnt hd' hnow]
    · have hrest := fun hrest => hset (r.sets_later hd hd' hrange ha hview₂ hrest)
      rw [(hbytes d' hd' a ha).2 hrest, r.setBytes_of_not_sets hs hnt hd' (by omega) ha]
      exact fun hnow => hset (sets_of_now hrange ha hnow)

end Turn

/-! ## The range and nothing else -/

/-- The range has the value, the rest of the process is unchanged, and so is what other processes have outside shared
memory. -/
structure MemsetDone (segs : Ppn → List SegmentMap) (pages : Ppn → Nat → Idx → BitVec 64) (dirs : Finset Ppn) (d : Ppn)
    (dst : Nat) (value : UInt8) (len : Nat) (m m' : Mem) : Prop where
  set : ∀ a, dst ≤ a → a < dst + len → a < VA_MAX ∧ spaceByte segs pages m' d a = some value
  own : ∀ a < VA_MAX, ¬ (dst ≤ a ∧ a < dst + len) → spaceByte segs pages m' d a = spaceByte segs pages m d a
  others : ∀ d' ∈ dirs, d' ≠ d → ∀ a < VA_MAX, (∀ e, view m d' (vpn a) = some e → pteHas e PTE_SHM_BIT = false) →
    spaceByte segs pages m' d' a = spaceByte segs pages m d' a

/-- The range ends at `VA_MAX` at the latest; its bytes on copy-on-write pages have the value already, or get it through an
earlier page of the range; and so have the bytes outside it that it maps too. -/
structure MemsetFits (segs : Ppn → List SegmentMap) (pages : Ppn → Nat → Idx → BitVec 64) (dirs : Finset Ppn) (d : Ppn)
    (dst : Nat) (value : UInt8) (len : Nat) (m : Mem) : Prop where
  below : ∀ a, dst ≤ a → a < dst + len → a < VA_MAX
  cow : ∀ a, dst ≤ a → a < dst + len → ∀ e, view m d (vpn a) = some e → pteHas e PTE_COW_BIT = true →
    spaceByte segs pages m d a = some value ∨ Lands m d dst len d a
  own : ∀ a < VA_MAX, ¬ (dst ≤ a ∧ a < dst + len) → Lands m d dst len d a → spaceByte segs pages m d a = some value
  others : ∀ d' ∈ dirs, d' ≠ d → ∀ a < VA_MAX, (∀ e, view m d' (vpn a) = some e → pteHas e PTE_SHM_BIT = false) →
    Lands m d dst len d' a → spaceByte segs pages m d' a = some value

section Done

variable {img : Image} {dirs : Finset Ppn} {m : Mem} {d : Ppn} {dst len a : Nat} {e : Pte}

/-- The range lands on itself, copy-on-write pages apart. -/
theorem lands_self (hv : view m d (vpn a) = some e) (hu : pteHas e PTE_USER_BIT = true) (hp : pteHas e PTE_COW_BIT = false)
    (hlo : dst ≤ a) (hhi : a < dst + len) : Lands m d dst len d a :=
  ⟨a, hlo, hhi, e, e, hv, hv, hu, rfl, rfl, fun _ hc => by
    rw [hp] at hc
    cases hc⟩

/-- With memory for the pages a range of writable, copy-on-write and lazily loaded pages needs, `memsetOut` sets the range
and nothing else just when the range fits. -/
theorem memsetOut_done_iff (segs : Ppn → List SegmentMap) (pages : Ppn → Nat → Idx → BitVec 64) (value : UInt8)
    (h : MemInv img m dirs) (hd : d ∈ dirs) (hpages : ∀ a, dst ≤ a → a < dst + len → WritableAt (segs d) m d a)
    (hmem : 3 * pagesMet dst len ≤ m.freePageList.length) :
    (∃ m', memsetOut (segs d) (pages d) d dst value len m = .ok m' ∧ MemsetDone segs pages dirs d dst value len m m') ↔
      MemsetFits segs pages dirs d dst value len m := by
  have hloop : (∀ a, dst ≤ a → a < dst + len → a < VA_MAX) →
      ∃ m', memsetOut (segs d) (pages d) d dst value len m = .ok m' ∧ ∀ d' ∈ dirs, ∀ a < VA_MAX,
        (Sets m d dst len d' a → spaceByte segs pages m' d' a = some value) ∧
        (¬ Sets m d dst len d' a → spaceByte segs pages m' d' a = spaceByte segs pages m d' a) := by
    intro hbelow
    rcases Nat.eq_zero_or_pos len with rfl | hpos
    · refine ⟨m, rfl, fun d' _ a _ => ⟨fun hset => ?_, fun _ => rfl⟩⟩
      rcases hset with ⟨-, -, hlo, hhi⟩ | ⟨b, hlo, hhi, -⟩ <;> omega
    · have hlast := hbelow (dst + (len - 1)) (by omega) (by omega)
      exact h.memsetOutLoop segs pages hd (by omega) (fun a hlo hhi => (hpages a hlo hhi).accessible) (.inr hmem)
        (Nat.le_refl _) value
  constructor
  · rintro ⟨m', hrun, hdone⟩
    have hbelow := fun a hlo hhi => (hdone.set a hlo hhi).1
    obtain ⟨m'', hrun', hbytes⟩ := hloop hbelow
    obtain rfl : m' = m'' := Except.ok.inj (hrun.symm.trans hrun')
    refine ⟨hbelow, fun a hlo hhi e hv _ => ?_, fun a ha hout hland => ?_, fun d' hd' hne a ha hshm hland => ?_⟩
    · obtain ⟨ha, hset⟩ := hdone.set a hlo hhi
      by_cases hland : Lands m d dst len d a
      · exact .inr hland
      · have hno : ¬ Sets m d dst len d a := by
          rintro (⟨-, hnone, -⟩ | hl)
          · rw [hv] at hnone
            cases hnone
          · exact hland hl
        exact .inl (((hbytes d hd a ha).2 hno).symm.trans hset)
    · exact (hdone.own a ha hout).symm.trans ((hbytes d hd a ha).1 (.inr hland))
    · exact (hdone.others d' hd' hne a ha hshm).symm.trans ((hbytes d' hd' a ha).1 (.inr hland))
  · intro hfits
    obtain ⟨m', hrun, hbytes⟩ := hloop hfits.below
    refine ⟨m', hrun, fun a hlo hhi => ?_, fun a ha hout => ?_, fun d' hd' hne a ha hshm => ?_⟩
    · have ha := hfits.below a hlo hhi
      refine ⟨ha, ?_⟩
      by_cases hset : Sets m d dst len d a
      · exact (hbytes d hd a ha).1 hset
      · rw [(hbytes d hd a ha).2 hset]
        rcases hpages a hlo hhi with ⟨e, hv, hu, -⟩ | ⟨hnone, -⟩
        · cases hp : pteHas e PTE_COW_BIT with
          | false => exact absurd (.inr (lands_self hv hu hp hlo hhi)) hset
          | true => exact (hfits.cow a hlo hhi e hv hp).resolve_right fun hland => hset (.inr hland)
        · exact absurd (.inl ⟨rfl, hnone, hlo, hhi⟩) hset
    · by_cases hset : Sets m d dst len d a
      · rw [(hbytes d hd a ha).1 hset]
        rcases hset with ⟨-, -, hin⟩ | hland
        · exact absurd hin hout
        · exact (hfits.own a ha hout hland).symm
      · exact (hbytes d hd a ha).2 hset
    · by_cases hset : Sets m d dst len d' a
      · rw [(hbytes d' hd' a ha).1 hset]
        rcases hset with ⟨heq, -⟩ | hland
        · exact absurd heq hne
        · exact (hfits.others d' hd' hne a ha hshm hland).symm
      · exact (hbytes d' hd' a ha).2 hset

end Done

/-- Two bytes across a page boundary of a stack that is not there yet. -/
theorem memsetOut_done_iff_stack : ∃ dirs d m m', MemInv Image.sample m dirs ∧
    memsetOut [] (fun _ _ => 0) d (USER_STACK_TOP - PAGE_SIZE - 1) 7 2 m = .ok m' ∧
    MemsetDone (fun _ => []) (fun _ _ _ => 0) dirs d (USER_STACK_TOP - PAGE_SIZE - 1) 7 2 m m' := by
  obtain ⟨dirs, d, -, m, h, hd, -, -, hlen, hempty⟩ := exists_emptyProcesses
  have hbottom : USER_STACK_BOTTOM ≤ USER_STACK_TOP - PAGE_SIZE - 1 := by decide
  have htop : USER_STACK_TOP - PAGE_SIZE - 1 + 2 ≤ USER_STACK_TOP := by decide
  have hmax : USER_STACK_TOP ≤ VA_MAX := by decide
  have hland : ∀ {x a} {P : Prop}, Lands m d (USER_STACK_TOP - PAGE_SIZE - 1) 2 x a → P := fun hl => by
    obtain ⟨b, -, -, e, e', hv, -⟩ := hl
    rw [hempty d hd] at hv
    cases hv
  have hmet : pagesMet (USER_STACK_TOP - PAGE_SIZE - 1) 2 = 2 := by decide
  obtain ⟨m', hrun, hdone⟩ := (memsetOut_done_iff (fun _ => []) (fun _ _ _ => 0) 7 h hd
    (fun a hlo hhi => .inr ⟨hempty d hd _, .inl ⟨by omega, by omega⟩⟩) (by omega)).mpr
    ⟨fun a hlo hhi => by omega, fun a _ _ e hv => (by rw [hempty d hd] at hv; cases hv), fun a _ _ hl => hland hl,
      fun _ _ _ a _ _ hl => hland hl⟩
  exact ⟨dirs, d, m, m', h, hrun, hdone⟩

/-- Parent and child after a fork: one page, copy-on-write in both. -/
theorem exists_sharedCow : ∃ dirs d d' m e, MemInv Image.sample m dirs ∧ d ∈ dirs ∧ d' ∈ dirs ∧ d' ≠ d ∧
    3 ≤ m.freePageList.length ∧ view m d (vpn 0x1000) = some e ∧ view m d' (vpn 0x1000) = some e ∧
    pteHas e PTE_USER_BIT = true ∧ pteHas e PTE_COW_BIT = true ∧ pteHas e PTE_SHM_BIT = false ∧ Isolated Image.sample dirs m := by
  obtain ⟨dirs, d, d', m₀, h₀, hd, hd', hne, hlen, hempty⟩ := exists_emptyProcesses
  have hperm : PermOk (PTE_READ_BIT ||| PTE_USER_BIT ||| PTE_COW_BIT) := by decide
  obtain ⟨m, y, h, hlen', hv, hv', honly⟩ := h₀.map_twice hempty hlen hd hd' (fun hc => hne hc.1) hperm
  have hbit : ∀ i, i < 10 → i ≠ 0 → i ≠ 6 → i ≠ 7 → pteHas (touchPte y (PTE_READ_BIT ||| PTE_USER_BIT ||| PTE_COW_BIT)) (bit i) =
      (PTE_READ_BIT ||| PTE_USER_BIT ||| PTE_COW_BIT).getLsbD i := fun i => pteHas_touchPte y _
  refine ⟨dirs, d, d', m, _, h, hd, hd', hne, hlen', hv, hv', ?_, ?_, ?_, fun x hx v e he _ hw => ?_⟩
  · exact (hbit 4 (by omega) (by omega) (by omega) (by omega)).trans (by decide)
  · exact (hbit 8 (by omega) (by omega) (by omega) (by omega)).trans (by decide)
  · exact (hbit 9 (by omega) (by omega) (by omega) (by omega)).trans (by decide)
  · have hno := (hbit 2 (by omega) (by omega) (by omega) (by omega)).trans (by decide : _ = false)
    rw [honly x hx v e he, PTE_WRITE_BIT, hno] at hw
    cases hw

/-- The caller keeps its byte, the other process gets the value. -/
theorem memsetOut_sets_other : ∃ dirs d d' m value m', MemInv Image.sample m dirs ∧ Isolated Image.sample dirs m ∧ d ∈ dirs ∧
    d' ∈ dirs ∧ d' ≠ d ∧ 3 * pagesMet 0x1000 1 ≤ m.freePageList.length ∧ WritableAt [] m d 0x1000 ∧
    (∀ e, view m d' (vpn 0x1000) = some e → pteHas e PTE_SHM_BIT = false) ∧
    memsetOut [] (fun _ _ => 0) d 0x1000 value 1 m = .ok m' ∧
    spaceByte (fun _ => []) (fun _ _ _ => 0) m' d 0x1000 ≠ some value ∧
    spaceByte (fun _ => []) (fun _ _ _ => 0) m' d' 0x1000 ≠ spaceByte (fun _ => []) (fun _ _ _ => 0) m d' 0x1000 := by
  obtain ⟨dirs, d, d', m, e, h, hd, hd', hne, hlen, hv, hv', hu, hcow, hshm, iso⟩ := exists_sharedCow
  have hbyte : ∀ x, view m x (vpn 0x1000) = some e → spaceByte (fun _ => []) (fun _ _ _ => 0) m x 0x1000 =
      some (loadByte m (pte2Ppn e <<< PAGE_SHIFT + vaOffset 0x1000)) := fun x hx => spaceByte_eq_load hx hu
  obtain ⟨value, hvalue⟩ : ∃ value, value ≠ loadByte m (pte2Ppn e <<< PAGE_SHIFT + vaOffset 0x1000) := by
    by_cases hzero : loadByte m (pte2Ppn e <<< PAGE_SHIFT + vaOffset 0x1000) = 0
    · exact ⟨1, fun heq => absurd (heq.trans hzero) (by decide)⟩
    · exact ⟨0, fun heq => hzero heq.symm⟩
  have hmet : pagesMet 0x1000 1 = 1 := by decide
  have hone : ∀ a, 0x1000 ≤ a → a < 0x1000 + 1 → a = 0x1000 := fun a hlo hhi => by omega
  obtain ⟨m', hrun, hbytes⟩ := h.memsetOutLoop (fun _ => []) (fun _ _ _ => 0) hd (by decide : 0x1000 + 1 ≤ VA_MAX)
    (fun a hlo hhi => .inl ⟨e, hone a hlo hhi ▸ hv, hu⟩) (.inr (by omega)) (Nat.le_refl 1) value
  have hmax : 0x1000 < VA_MAX := by decide
  have hown : ¬ Sets m d 0x1000 1 d 0x1000 := by
    rintro (⟨-, hnone, -⟩ | ⟨b, hlo, hhi, e₁, e₂, -, hv₂, -, -, -, hbefore⟩)
    · rw [hv] at hnone
      cases hnone
    · obtain rfl := Option.some.inj (hv.symm.trans hv₂)
      have := hbefore rfl hcow ⟨0x1000, Nat.le_refl _, by decide, rfl⟩
      have halign : alignDown 0x1000 = 0x1000 := by decide
      omega
  have hother : Sets m d 0x1000 1 d' 0x1000 :=
    .inr ⟨0x1000, Nat.le_refl _, by decide, e, e, hv, hv', hu, rfl, rfl, fun heq => absurd heq hne⟩
  refine ⟨dirs, d, d', m, value, m', h, iso, hd, hd', hne, by omega, .inl ⟨e, hv, hu, .inr hcow⟩, fun e' he' => ?_, hrun, ?_, ?_⟩
  · obtain rfl := Option.some.inj (hv'.symm.trans he')
    exact hshm
  · rw [(hbytes d hd 0x1000 hmax).2 hown, hbyte d hv]
    exact fun heq => hvalue (Option.some.inj heq).symm
  · rw [(hbytes d' hd' 0x1000 hmax).1 hother, hbyte d' hv']
    exact fun heq => hvalue (Option.some.inj heq)

end Exaros
