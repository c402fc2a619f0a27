import Exaros.Lib.Countdown
import Exaros.Memory.Region
import Mathlib.Data.List.GetD

/-!
# Transfers of the SD card

`sdDevRead` and `sdDevWrite` of `kernel/driver/sd.c` move whole blocks between the card and a buffer of the
kernel or of a process. Each of their loops counts the blocks down in a `u64` and tests it after the block, so
without a block to move it goes on through `2 ^ 64` of them. With one at least, the transfer is of the blocks
asked for, and touches no other and no other memory.

What the card does for a block is taken as given: `sdRead` receives the blocks from the one it asks for on, and
`sdWrite` leaves the block written. `late` says at which blocks the card keeps `sdRead` waiting too long, once
for each try. The memory of the process is behind an `Access`, which `copyout` and `copyin` provide.
-/

namespace Exaros.Sd

/-- What stops the kernel. -/
inductive Stop (E : Type) where
  /-- `readTimes > 10` -/
  | readTimes
  /-- `writeTimes > 10` -/
  | writeTimes
  /-- `copyin` or `copyout` -/
  | copy (e : E)
  /-- a loop without an end; not reached -/
  | endless

/-- A way to the memory of a process: what a byte is, `copyout` and `copyin`. -/
structure Access (M E Addr : Type) where
  byte : M → Addr → Option UInt8
  addr : Nat → Addr
  copyout : Nat → List UInt8 → M → Except E M
  copyin : Nat → Nat → M → Except E (List UInt8 × M)

abbrev KernelMem := BitVec 64 → UInt8

structure State (M : Type) where
  kernel : KernelMem
  user : M
  /-- the bytes of each block -/
  card : Nat → Nat → UInt8
  /-- the blocks moved so far -/
  touched : List Nat

/-! ## `sdRead` and `sdWrite` -/

/-- The 512 bytes that are received to `p`. -/
def storeBlock (m : KernelMem) (p : BitVec 64) (block : Nat → UInt8) : KernelMem := fun a =>
  if (a - p).toNat < 512 then block (a - p).toNat else m a

/-- A buffer of the kernel, and the blocks received. -/
structure Received where
  mem : KernelMem
  touched : List Nat

section Code

variable {E : Type} (card : Nat → Nat → UInt8)

/-- One turn of the loop over blocks: turn `i` receives block `startBlock + i`. -/
def readTurn (buf : BitVec 64) (startBlock i : Nat) (r : Received) : Received :=
  ⟨storeBlock r.mem (buf + BitVec.ofNat 64 (512 * i)) (card ((startBlock + i) % 2 ^ 64)),
    r.touched ++ [(startBlock + i) % 2 ^ 64]⟩

/-- What a try has received when the card keeps it waiting for block `k`. -/
def readUntil (buf : BitVec 64) (startBlock : Nat) : Nat → Received → Received
  | 0, r => r
  | k + 1, r => readTurn card buf startBlock k (readUntil buf startBlock k r)

/-- `sdRead`: tries that come to nothing, and the one that receives all blocks. -/
def sdRead (late : List Nat) (buf : BitVec 64) (startBlock blockNumber : Nat) (r : Received) :
    Except (Stop E) Received :=
  if 10 < late.length then .error .readTimes
  else
    Countdown.run (fun i r => .ok (readTurn card buf startBlock i r)) .endless blockNumber
      (late.foldl (fun r k => readUntil card buf startBlock (min k (Countdown.turns blockNumber)) r) r)

end Code

/-- `sdWrite` of one block; `late` is how often it is sent in vain. -/
def sdWrite {M E : Type} (late : Nat → Nat) (buf : List UInt8) (startBlock : Nat) (s : State M) :
    Except (Stop E) (State M) :=
  if 10 < late startBlock then .error .writeTimes
  else
    .ok { s with
      card := fun b => if b = startBlock then fun j => buf.getD j 0 else s.card b
      touched := s.touched ++ [startBlock] }

/-! ## The device -/

section Device

variable {M E Addr : Type} (A : Access M E Addr)

/-- A turn of `sdDevRead` for a process: the block goes to `buf[512]` and from there to the process. -/
def userReadTurn (late : Nat → List Nat) (dst startBlock i : Nat) (s : State M) : Except (Stop E) (State M) := do
  let r ← sdRead s.card (late ((startBlock + i) % 2 ^ 64)) 0 ((startBlock + i) % 2 ^ 64) 1 ⟨fun _ => 0, s.touched⟩
  let user ← (A.copyout ((dst + 512 * i) % 2 ^ 64) ((List.range 512).map fun j => r.mem (BitVec.ofNat 64 j))
    s.user).mapError Stop.copy
  return { s with user, touched := r.touched }

/-- `sdDevRead` -/
def sdDevRead (late : Nat → List Nat) (isUser : Bool) (dst startAddr n : Nat) (s : State M) :
    Except (Stop E) (Int × State M) :=
  if n % 512 ≠ 0 then .ok (-1, s)
  else if startAddr % 512 ≠ 0 then .ok (-1, s)
  else
    let startBlock := startAddr / 512
    let blockNumber := n / 512
    if isUser then
      (Countdown.run (userReadTurn A late dst startBlock) .endless blockNumber s).map fun s => (0, s)
    else
      (sdRead s.card (late startBlock) (BitVec.ofNat 64 dst) startBlock blockNumber ⟨s.kernel, s.touched⟩).map fun r =>
        (0, { s with kernel := r.mem, touched := r.touched })

/-- A turn of `sdDevWrite` for a process. -/
def userWriteTurn (late : Nat → Nat) (src startBlock i : Nat) (s : State M) : Except (Stop E) (State M) := do
  let (buf, user) ← (A.copyin ((src + 512 * i) % 2 ^ 64) 512 s.user).mapError Stop.copy
  sdWrite late buf ((startBlock + i) % 2 ^ 64) { s with user }

/-- A turn of `sdDevWrite` for the kernel. -/
def kernelWriteTurn (late : Nat → Nat) (src : BitVec 64) (startBlock i : Nat) (s : State M) :
    Except (Stop E) (State M) :=
  sdWrite late ((List.range 512).map fun j => s.kernel (src + BitVec.ofNat 64 (512 * i) + BitVec.ofNat 64 j))
    ((startBlock + i) % 2 ^ 64) s

/-- `sdDevWrite` -/
def sdDevWrite (late : Nat → Nat) (isUser : Bool) (src startAddr n : Nat) (s : State M) :
    Except (Stop E) (Int × State M) :=
  if n % 512 ≠ 0 then .ok (-1, s)
  else if startAddr % 512 ≠ 0 then .ok (-1, s)
  else
    let startBlock := startAddr / 512
    let blockNumber := n / 512
    if isUser then
      (Countdown.run (userWriteTurn A late src startBlock) .endless blockNumber s).map fun s => (0, s)
    else
      (Countdown.run (kernelWriteTurn late (BitVec.ofNat 64 src) startBlock) .endless blockNumber s).map fun s => (0, s)

/-! ## What a transfer is -/

/-- The buffer of a process: as long as the memory is `Good`, copies within it return, store and deliver its bytes
and change no others. -/
structure Access.Buffer (Good : M → Prop) (dst n : Nat) : Prop where
  bound : dst + n ≤ 2 ^ 64
  inj : ∀ i j, i < n → j < n → A.addr (dst + i) = A.addr (dst + j) → i = j
  copyout : ∀ m va src, Good m → dst ≤ va → va + src.length ≤ dst + n → ∃ m', A.copyout va src m = .ok m' ∧ Good m' ∧
    (∀ i < src.length, A.byte m' (A.addr (va + i)) = src[i]?) ∧
    ∀ x, (∀ i < src.length, x ≠ A.addr (va + i)) → A.byte m' x = A.byte m x
  copyin : ∀ m va len, Good m → dst ≤ va → va + len ≤ dst + n → ∃ bytes m', A.copyin va len m = .ok (bytes, m') ∧
    Good m' ∧ bytes.map some = (List.range len).map (fun i => A.byte m (A.addr (va + i))) ∧ ∀ x, A.byte m' x = A.byte m x

/-- The blocks moved are the `n / 512` from `startBlock` on. -/
def Moved (startBlock n : Nat) (touched : List Nat) : Prop :=
  ∀ b, b ∈ touched ↔ startBlock ≤ b ∧ b < startBlock + n / 512

/-- The blocks were read into the buffer of a process, and nothing else changed. -/
structure UserRead (dst startBlock n : Nat) (s s' : State M) : Prop where
  moved : Moved startBlock n s'.touched
  card : s'.card = s.card
  kernel : s'.kernel = s.kernel
  buffer : ∀ i < n, A.byte s'.user (A.addr (dst + i)) = some (s.card (startBlock + i / 512) (i % 512))
  rest : ∀ x, (∀ i < n, x ≠ A.addr (dst + i)) → A.byte s'.user x = A.byte s.user x

/-- The blocks were read into a buffer of the kernel. -/
structure KernelRead (dst startBlock n : Nat) (s s' : State M) : Prop where
  moved : Moved startBlock n s'.touched
  card : s'.card = s.card
  user : s'.user = s.user
  buffer : ∀ i < n, s'.kernel (BitVec.ofNat 64 (dst + i)) = s.card (startBlock + i / 512) (i % 512)
  rest : ∀ a, (∀ i < n, a ≠ BitVec.ofNat 64 (dst + i)) → s'.kernel a = s.kernel a

/-- The blocks were written from the buffer of a process. -/
structure UserWrite (src startBlock n : Nat) (s s' : State M) : Prop where
  moved : Moved startBlock n s'.touched
  kernel : s'.kernel = s.kernel
  user : ∀ x, A.byte s'.user x = A.byte s.user x
  blocks : ∀ i < n, some (s'.card (startBlock + i / 512) (i % 512)) = A.byte s.user (A.addr (src + i))
  rest : ∀ b, ¬ (startBlock ≤ b ∧ b < startBlock + n / 512) → s'.card b = s.card b

/-- The blocks were written from a buffer of the kernel. -/
structure KernelWrite (src startBlock n : Nat) (s s' : State M) : Prop where
  moved : Moved startBlock n s'.touched
  kernel : s'.kernel = s.kernel
  user : s'.user = s.user
  blocks : ∀ i < n, s'.card (startBlock + i / 512) (i % 512) = s.kernel (BitVec.ofNat 64 (src + i))
  rest : ∀ b, ¬ (startBlock ≤ b ∧ b < startBlock + n / 512) → s'.card b = s.card b

end Device

/-! ## Receiving blocks -/

section Receive

variable {E : Type} {card : Nat → Nat → UInt8} {buf : BitVec 64} {startBlock k n : Nat} {r r' : Received}

/-- Where block `k` of a buffer lies. -/
theorem storeBlock_eq (m : KernelMem) (block : Nat → UInt8) (hk : 512 * k + 512 ≤ 2 ^ 64) (a : BitVec 64) :
    storeBlock m (buf + BitVec.ofNat 64 (512 * k)) block a =
      if 512 * k ≤ (a - buf).toNat ∧ (a - buf).toNat < 512 * k + 512 then block ((a - buf).toNat - 512 * k) else m a := by
  have hoff : (a - (buf + BitVec.ofNat 64 (512 * k))).toNat = ((a - buf).toNat + 2 ^ 64 - 512 * k) % 2 ^ 64 := by
    have hx : (BitVec.ofNat 64 (512 * k)).toNat = 512 * k := by
      rw [BitVec.toNat_ofNat]
      exact Nat.mod_eq_of_lt (by omega)
    rw [← BitVec.sub_sub, BitVec.toNat_sub, hx]
    congr 1
    omega
  unfold storeBlock
  rw [hoff]
  by_cases hin : 512 * k ≤ (a - buf).toNat ∧ (a - buf).toNat < 512 * k + 512
  · have heq : ((a - buf).toNat + 2 ^ 64 - 512 * k) % 2 ^ 64 = (a - buf).toNat - 512 * k := by omega
    rw [if_pos hin, heq, if_pos (by omega)]
  · rw [if_neg hin, if_neg (by omega)]

/-- What has been received of the blocks up to `k`. -/
theorem readUntil_mem (hk : 512 * k ≤ 2 ^ 64) (hblock : startBlock + k ≤ 2 ^ 64) (a : BitVec 64) :
    (readUntil card buf startBlock k r).mem a =
      if (a - buf).toNat < 512 * k then card (startBlock + (a - buf).toNat / 512) ((a - buf).toNat % 512) else r.mem a := by
  induction k with
  | zero => rfl
  | succ k ih =>
    show storeBlock (readUntil card buf startBlock k r).mem _ _ a = _
    rw [storeBlock_eq _ _ (by omega), ih (by omega) (by omega), Nat.mod_eq_of_lt (by omega : startBlock + k < 2 ^ 64)]
    by_cases hold : (a - buf).toNat < 512 * k
    · rw [if_neg (by omega), if_pos hold, if_pos (by omega)]
    · by_cases hnew : (a - buf).toNat < 512 * (k + 1)
      · have hdiv : (a - buf).toNat / 512 = k := by omega
        have hmod : (a - buf).toNat % 512 = (a - buf).toNat - 512 * k := by omega
        rw [if_pos (by omega), if_pos hnew, hdiv, hmod]
      · rw [if_neg (by omega), if_neg hold, if_neg hnew]

theorem readUntil_touched (hblock : startBlock + k ≤ 2 ^ 64) (b : Nat) :
    b ∈ (readUntil card buf startBlock k r).touched ↔ b ∈ r.touched ∨ startBlock ≤ b ∧ b < startBlock + k := by
  induction k with
  | zero =>
    exact ⟨.inl, fun hb => hb.resolve_right (by omega)⟩
  | succ k ih =>
    show b ∈ (readUntil card buf startBlock k r).touched ++ [_] ↔ _
    rw [List.mem_append, List.mem_singleton, ih (by omega), Nat.mod_eq_of_lt (by omega : startBlock + k < 2 ^ 64),
      or_assoc]
    apply or_congr_right
    omega

/-- Of two buffers, the second differs in the blocks asked for only. -/
structure Within (buf : BitVec 64) (startBlock n : Nat) (r r' : Received) : Prop where
  mem : ∀ a : BitVec 64, 512 * n ≤ (a - buf).toNat → r'.mem a = r.mem a
  touched : ∀ b, b ∈ r'.touched → b ∈ r.touched ∨ startBlock ≤ b ∧ b < startBlock + n
  kept : ∀ b ∈ r.touched, b ∈ r'.touched

/-- Tries that come to nothing. -/
theorem within_late (card : Nat → Nat → UInt8) (buf : BitVec 64) (hn : 512 * n ≤ 2 ^ 64) (hblock : startBlock + n ≤ 2 ^ 64) (late : List Nat) (r : Received) :
    Within buf startBlock n r (late.foldl (fun r k => readUntil card buf startBlock (min k n) r) r) := by
  induction late generalizing r with
  | nil => exact ⟨fun _ _ => rfl, fun _ hb => .inl hb, fun _ hb => hb⟩
  | cons k late ih =>
    have hrest := ih (readUntil card buf startBlock (min k n) r)
    rw [List.foldl_cons]
    refine ⟨fun a ha => ?_, fun b hb => ?_, fun b hb => hrest.kept b ?_⟩
    · rw [hrest.mem a ha, readUntil_mem (by omega) (by omega), if_neg (by omega)]
    · rcases hrest.touched b hb with hb | hb
      · rw [readUntil_touched (by omega)] at hb
        exact hb.imp_right fun h => by omega
      · exact .inr hb
    · rw [readUntil_touched (by omega)]
      exact .inl hb

/-- **`sdRead`** of at least one block, with a card that answers within the tries there are. -/
theorem sdRead_ok (card : Nat → Nat → UInt8) (buf : BitVec 64) (startBlock n : Nat) {late : List Nat}
    (hlate : late.length ≤ 10) (hpos : n ≠ 0) (hn : 512 * n ≤ 2 ^ 64) (hblock : startBlock + n ≤ 2 ^ 64) (r : Received) :
    ∃ r', sdRead (E := E) card late buf startBlock n r = .ok r' ∧
      (∀ a : BitVec 64, r'.mem a = if (a - buf).toNat < 512 * n then
        card (startBlock + (a - buf).toNat / 512) ((a - buf).toNat % 512) else r.mem a) ∧
      ∀ b, b ∈ r'.touched ↔ b ∈ r.touched ∨ startBlock ≤ b ∧ b < startBlock + n := by
  have hturns := Countdown.turns_of_pos hpos
  obtain ⟨r', hrun, hr'⟩ := Countdown.run_invariant
    (fun i r => (.ok (readTurn card buf startBlock i r) : Except (Stop E) Received)) .endless (n := n) (P := fun i x => x = readUntil card buf startBlock i
      (late.foldl (fun r k => readUntil card buf startBlock (min k (Countdown.turns n)) r) r))
    (by omega) rfl fun j _ x hx => ⟨_, rfl, by rw [hx]; rfl⟩
  rw [hturns] at hr'
  have hw := within_late card buf hn hblock late r
  refine ⟨r', ?_, fun a => ?_, fun b => ?_⟩
  · unfold sdRead
    rw [if_neg (by omega)]
    exact hrun
  · rw [hr', readUntil_mem hn hblock]
    by_cases hin : (a - buf).toNat < 512 * n
    · rw [if_pos hin, if_pos hin]
    · rw [if_neg hin, if_neg hin]
      exact hw.mem a (by omega)
  · rw [hr', readUntil_touched hblock]
    constructor
    · intro hb
      exact hb.elim (hw.touched b) .inr
    · intro hb
      exact hb.imp_left (hw.kept b)

/-- Whatever the count, a block is received. -/
theorem sdRead_touches {late : List Nat} (hblock : startBlock < 2 ^ 64)
    (hok : sdRead (E := E) card late buf startBlock n r = .ok r') : startBlock ∈ r'.touched := by
  unfold sdRead at hok
  split at hok
  · cases hok
  · refine Countdown.run_first (Q := fun r => startBlock ∈ r.touched) (fun r₁ h => ?_) (fun j r r₁ hr h => ?_) hok
    · cases h
      show startBlock ∈ _ ++ [(startBlock + 0) % 2 ^ 64]
      rw [Nat.add_zero, Nat.mod_eq_of_lt hblock]
      exact List.mem_append_right _ (List.mem_singleton_self _)
    · cases h
      exact List.mem_append_left _ hr

end Receive

/-! ## Block by block -/

section Turns

variable {M E Addr : Type} {A : Access M E Addr} {Good : M → Prop} {dst startBlock n i : Nat} {s s₁ : State M}
  {late : Nat → Nat}

/-- Blocks after `i` turns of a transfer. -/
def MovedTo (startBlock i : Nat) (touched : List Nat) : Prop :=
  ∀ b, b ∈ touched ↔ startBlock ≤ b ∧ b < startBlock + i

theorem MovedTo.next {touched touched' : List Nat} (h : MovedTo startBlock i touched)
    (hnext : ∀ b, b ∈ touched' ↔ b ∈ touched ∨ startBlock + i ≤ b ∧ b < startBlock + i + 1) :
    MovedTo startBlock (i + 1) touched' := by
  intro b
  rw [hnext, h b]
  omega

/-- `sdDevRead` for a process, after `i` turns. -/
structure UserReading (A : Access M E Addr) (Good : M → Prop) (dst startBlock : Nat) (s : State M) (i : Nat)
    (s₁ : State M) : Prop where
  good : Good s₁.user
  moved : MovedTo startBlock i s₁.touched
  card : s₁.card = s.card
  kernel : s₁.kernel = s.kernel
  buffer : ∀ j < 512 * i, A.byte s₁.user (A.addr (dst + j)) = some (s.card (startBlock + j / 512) (j % 512))
  rest : ∀ x, (∀ j < 512 * i, x ≠ A.addr (dst + j)) → A.byte s₁.user x = A.byte s.user x

/-- A turn reads one block more. -/
theorem UserReading.turn (h : UserReading A Good dst startBlock s i s₁) (hbuf : A.Buffer Good dst n)
    {late : Nat → List Nat} (hlate : ∀ b, (late b).length ≤ 10) (hin : 512 * i + 512 ≤ n)
    (hblock : startBlock + i + 1 ≤ 2 ^ 64) :
    ∃ s₂, userReadTurn A late dst startBlock i s₁ = .ok s₂ ∧ UserReading A Good dst startBlock s (i + 1) s₂ := by
  have hbound := hbuf.bound
  have hmod : (startBlock + i) % 2 ^ 64 = startBlock + i := Nat.mod_eq_of_lt (by omega)
  have hva : (dst + 512 * i) % 2 ^ 64 = dst + 512 * i := Nat.mod_eq_of_lt (by omega)
  obtain ⟨r, hread, hmem, htouched⟩ := sdRead_ok (E := E) s₁.card 0 (startBlock + i) 1 (hlate (startBlock + i))
    (by omega) (by omega) (by omega) ⟨fun _ => 0, s₁.touched⟩
  have hbytes : (List.range 512).map (fun j => r.mem (BitVec.ofNat 64 j)) = (List.range 512).map (s.card (startBlock + i)) := by
    apply List.map_congr_left
    intro j hj
    have hlt := List.mem_range.mp hj
    have hzero : BitVec.ofNat 64 j - 0 = BitVec.ofNat 64 j := BitVec.sub_zero _
    have hoff : (BitVec.ofNat 64 j - 0).toNat = j := by
      rw [hzero, BitVec.toNat_ofNat]
      exact Nat.mod_eq_of_lt (by omega)
    have hdiv : j / 512 = 0 := by omega
    have hrem : j % 512 = j := by omega
    rw [hmem, hoff, if_pos (by omega), hdiv, hrem, h.card, Nat.add_zero]
  have hlen : ((List.range 512).map (s.card (startBlock + i))).length = 512 := by
    rw [List.length_map, List.length_range]
  obtain ⟨m', hcopy, hgood, hset, hoff⟩ := hbuf.copyout s₁.user (dst + 512 * i)
    ((List.range 512).map (s.card (startBlock + i))) h.good (by omega) (by rw [hlen]; omega)
  rw [hlen] at hset hoff
  refine ⟨{ s₁ with user := m', touched := r.touched }, ?_, hgood, h.moved.next htouched, h.card, h.kernel,
    fun j hj => ?_, fun x hx => ?_⟩
  · unfold userReadTurn
    rw [hmod, hva, hread, Loop.ok_bind, hbytes, hcopy]
    rfl
  · by_cases hnew : 512 * i ≤ j
    · have hdiv : j / 512 = i := by omega
      have hrem : j % 512 = j - 512 * i := by omega
      have hthis := hset (j - 512 * i) (by omega)
      rw [show dst + 512 * i + (j - 512 * i) = dst + j by omega, List.getElem?_map,
        List.getElem?_range (by omega), Option.map_some] at hthis
      rw [hdiv, hrem]
      exact hthis
    · rw [← h.buffer j (by omega)]
      apply hoff
      intro t ht heq
      have := hbuf.inj j (512 * i + t) (by omega) (by omega) (by rw [← Nat.add_assoc]; exact heq)
      omega
  · rw [← h.rest x fun j hj => hx j (by omega)]
    apply hoff
    intro t ht
    rw [Nat.add_assoc]
    exact hx (512 * i + t) (by omega)

/-- `sdDevWrite`, after `i` turns: blocks have the bytes `byte` of the buffer. -/
structure Writing (byte : Nat → Option UInt8) (startBlock : Nat) (s : State M) (i : Nat) (s₁ : State M) : Prop where
  moved : MovedTo startBlock i s₁.touched
  kernel : s₁.kernel = s.kernel
  blocks : ∀ j < 512 * i, some (s₁.card (startBlock + j / 512) (j % 512)) = byte j
  rest : ∀ b, ¬ (startBlock ≤ b ∧ b < startBlock + i) → s₁.card b = s.card b

/-- A block is written. -/
theorem Writing.sdWrite {byte : Nat → Option UInt8} (h : Writing byte startBlock s i s₁)
    (hlate : late (startBlock + i) ≤ 10) {buf : List UInt8}
    (hbuf : buf.map some = (List.range 512).map fun j => byte (512 * i + j)) :
    ∃ s₂, sdWrite (E := E) late buf (startBlock + i) s₁ = .ok s₂ ∧ s₂.user = s₁.user ∧
      Writing byte startBlock s (i + 1) s₂ := by
  have hget : ∀ j < 512, some (buf.getD j 0) = byte (512 * i + j) := by
    intro j hj
    have hlen : buf.length = 512 := by
      have hmap := congrArg List.length hbuf
      rwa [List.length_map, List.length_map, List.length_range] at hmap
    have hat := congrArg (fun l : List (Option UInt8) => l[j]?) hbuf
    simp only [List.getElem?_map, List.getElem?_range hj, Option.map_some] at hat
    rw [List.getElem?_eq_getElem (by omega), Option.map_some] at hat
    rw [List.getD_eq_getElem _ _ (by omega)]
    exact Option.some.inj hat
  refine ⟨_, if_neg (by omega), rfl, ?_, h.kernel, fun j hj => ?_, fun b hb => ?_⟩
  · apply h.moved.next
    intro b
    rw [List.mem_append, List.mem_singleton]
    apply or_congr_right
    omega
  · show some ((if startBlock + j / 512 = startBlock + i then fun j => buf.getD j 0 else s₁.card (startBlock + j / 512))
      (j % 512)) = byte j
    by_cases hnew : 512 * i ≤ j
    · rw [if_pos (by omega), hget _ (by omega), show 512 * i + j % 512 = j by omega]
    · rw [if_neg (by omega)]
      exact h.blocks j (by omega)
  · show (if b = startBlock + i then fun j => buf.getD j 0 else s₁.card b) = s.card b
    rw [if_neg (by omega)]
    exact h.rest b (by omega)

/-- A turn writes one block more. -/
theorem Writing.userTurn {src : Nat} (h : Writing (fun j => A.byte s.user (A.addr (src + j))) startBlock s i s₁)
    (hgood : Good s₁.user) (hsame : ∀ x, A.byte s₁.user x = A.byte s.user x) (hbuf : A.Buffer Good src n)
    (hlate : ∀ b, late b ≤ 10) (hin : 512 * i + 512 ≤ n) (hblock : startBlock + i + 1 ≤ 2 ^ 64) :
    ∃ s₂, userWriteTurn A late src startBlock i s₁ = .ok s₂ ∧ Good s₂.user ∧
      (∀ x, A.byte s₂.user x = A.byte s.user x) ∧
      Writing (fun j => A.byte s.user (A.addr (src + j))) startBlock s (i + 1) s₂ := by
  have hbound := hbuf.bound
  have hmod : (startBlock + i) % 2 ^ 64 = startBlock + i := Nat.mod_eq_of_lt (by omega)
  have hva : (src + 512 * i) % 2 ^ 64 = src + 512 * i := Nat.mod_eq_of_lt (by omega)
  obtain ⟨bytes, m', hcopy, hgood', hbytes, hkeep⟩ := hbuf.copyin s₁.user (src + 512 * i) 512 hgood (by omega) (by omega)
  have hbytes' : bytes.map some = (List.range 512).map fun j => A.byte s.user (A.addr (src + (512 * i + j))) := by
    rw [hbytes]
    apply List.map_congr_left
    intro j _
    rw [hsame, Nat.add_assoc]
  have h' : Writing (fun j => A.byte s.user (A.addr (src + j))) startBlock s i { s₁ with user := m' } :=
    ⟨h.moved, h.kernel, h.blocks, h.rest⟩
  obtain ⟨s₂, hwrite, huser, hnext⟩ := h'.sdWrite (E := E) (hlate (startBlock + i)) hbytes'
  refine ⟨s₂, ?_, huser ▸ hgood', fun x => ?_, hnext⟩
  · unfold userWriteTurn
    rw [hmod, hva, hcopy]
    exact hwrite
  · rw [huser]
    exact (hkeep x).trans (hsame x)

theorem Writing.kernelTurn {src : Nat} (h : Writing (fun j => some (s.kernel (BitVec.ofNat 64 (src + j)))) startBlock s i s₁)
    (hlate : ∀ b, late b ≤ 10) (hblock : startBlock + i + 1 ≤ 2 ^ 64) :
    ∃ s₂, kernelWriteTurn (E := E) late (BitVec.ofNat 64 src) startBlock i s₁ = .ok s₂ ∧ s₂.user = s₁.user ∧
      Writing (fun j => some (s.kernel (BitVec.ofNat 64 (src + j)))) startBlock s (i + 1) s₂ := by
  have hmod : (startBlock + i) % 2 ^ 64 = startBlock + i := Nat.mod_eq_of_lt (by omega)
  have hbytes : ((List.range 512).map fun j =>
        s₁.kernel (BitVec.ofNat 64 src + BitVec.ofNat 64 (512 * i) + BitVec.ofNat 64 j)).map some =
      (List.range 512).map fun j => some (s.kernel (BitVec.ofNat 64 (src + (512 * i + j)))) := by
    rw [List.map_map]
    apply List.map_congr_left
    intro j _
    show some (s₁.kernel _) = _
    rw [h.kernel, ← BitVec.ofNat_add, ← BitVec.ofNat_add, Nat.add_assoc]
  obtain ⟨s₂, hwrite, huser, hnext⟩ := Writing.sdWrite (E := E) h (hlate (startBlock + i)) hbytes
  refine ⟨s₂, ?_, huser, hnext⟩
  unfold kernelWriteTurn
  rw [hmod]
  exact hwrite

end Turns

/-! ## Whole transfers -/

section Transfers

variable {M E Addr : Type} {A : Access M E Addr} {Good : M → Prop} {dst startBlock n : Nat} {s s' : State M}
  {late : Nat → Nat} {startAddr : Nat}

/-- Nothing asked for, nothing to be moved. -/
theorem Moved.eq_nil {touched : List Nat} (h : Moved startBlock 0 touched) : touched = [] := by
  apply List.eq_nil_iff_forall_not_mem.mpr
  intro b hb
  have := (h b).mp hb
  omega

theorem sdWrite_touches {buf : List UInt8} {b : Nat} (h : sdWrite (E := E) late buf b s = .ok s') :
    s'.touched ≠ [] := by
  unfold sdWrite at h
  split at h
  · cases h
  · cases h
    exact List.append_ne_nil_of_right_ne_nil _ (List.cons_ne_nil _ _)

theorem userReadTurn_touches {late : Nat → List Nat} {i : Nat} (h : userReadTurn A late dst startBlock i s = .ok s') :
    s'.touched ≠ [] := by
  obtain ⟨r, hread, h⟩ := Loop.bind_ok h
  obtain ⟨user, -, h⟩ := Loop.bind_ok h
  cases h
  exact List.ne_nil_of_mem (sdRead_touches (Nat.mod_lt _ (by omega)) hread)

theorem userWriteTurn_touches {i : Nat} (h : userWriteTurn A late dst startBlock i s = .ok s') :
    s'.touched ≠ [] := by
  obtain ⟨⟨buf, user⟩, -, h⟩ := Loop.bind_ok h
  exact sdWrite_touches h

theorem kernelWriteTurn_touches {src : BitVec 64} {i : Nat}
    (h : kernelWriteTurn (E := E) late src startBlock i s = .ok s') : s'.touched ≠ [] := sdWrite_touches h

/-- **Reading for a process.** -/
theorem userRead_iff {startAddr : Nat} {late : Nat → List Nat} (hbuf : A.Buffer Good dst n) (hgood : Good s.user)
    (hs : s.touched = []) (hlate : ∀ b, (late b).length ≤ 10) (hstart : startAddr % 512 = 0) (hn : n % 512 = 0)
    (hstart64 : startAddr < 2 ^ 64) (hn64 : n < 2 ^ 64) :
    (∃ s', sdDevRead A late true dst startAddr n s = .ok (0, s') ∧ UserRead A dst (startAddr / 512) n s s') ↔ n ≠ 0 := by
  unfold sdDevRead
  rw [if_neg (not_not.mpr hn), if_neg (not_not.mpr hstart)]
  simp only [if_true]
  constructor
  · rintro ⟨s', hrun, hread⟩ rfl
    obtain ⟨s₁, hloop, heq⟩ := Loop.map_ok hrun
    obtain ⟨-, rfl⟩ := Prod.mk.inj heq
    exact Countdown.run_first (Q := fun s => s.touched ≠ []) (fun _ h => userReadTurn_touches h) (fun _ _ _ _ h => userReadTurn_touches h)
      hloop hread.moved.eq_nil
  · intro hpos
    have hblocks : n / 512 ≠ 0 := by omega
    have hstart₀ : UserReading A Good dst (startAddr / 512) s 0 s := by
      refine ⟨hgood, fun b => ?_, rfl, rfl, fun j hj => absurd hj (Nat.not_lt_zero j), fun _ _ => rfl⟩
      rw [hs]
      exact iff_of_false List.not_mem_nil (by omega)
    obtain ⟨s', hrun, h⟩ := Countdown.run_invariant (userReadTurn A late dst (startAddr / 512)) .endless
      (n := n / 512) (by omega) hstart₀ fun j hj s₁ h₁ => by
        rw [Countdown.turns_of_pos hblocks] at hj
        exact h₁.turn hbuf hlate (by omega) (by omega)
    rw [Countdown.turns_of_pos hblocks] at h
    have hlen : 512 * (n / 512) = n := by omega
    have hbuffer := h.buffer
    have hrest := h.rest
    rw [hlen] at hbuffer hrest
    exact ⟨s', by rw [hrun]; rfl, h.moved, h.card, h.kernel, hbuffer, hrest⟩

/-- A read for the kernel receives the block at its start, whatever its length. -/
theorem kernelRead_touches (startAddr : Nat) {late : Nat → List Nat} {r : Int} (hstart : startAddr % 512 = 0)
    (hn : n % 512 = 0) (hstart64 : startAddr < 2 ^ 64) (hrun : sdDevRead A late false dst startAddr n s = .ok (r, s')) :
    startAddr / 512 ∈ s'.touched := by
  unfold sdDevRead at hrun
  rw [if_neg (not_not.mpr hn), if_neg (not_not.mpr hstart)] at hrun
  simp only [Bool.false_eq_true, if_false] at hrun
  obtain ⟨r, hloop, heq⟩ := Loop.map_ok hrun
  obtain ⟨-, rfl⟩ := Prod.mk.inj heq
  exact sdRead_touches (by omega) hloop

/-- **Reading for the kernel.** -/
theorem kernelRead_iff {late : Nat → List Nat} (hbound : dst + n ≤ 2 ^ 64)
    (hs : s.touched = []) (hlate : ∀ b, (late b).length ≤ 10) (hstart : startAddr % 512 = 0) (hn : n % 512 = 0)
    (hstart64 : startAddr < 2 ^ 64) (hn64 : n < 2 ^ 64) :
    (∃ s', sdDevRead A late false dst startAddr n s = .ok (0, s') ∧ KernelRead dst (startAddr / 512) n s s') ↔ n ≠ 0 := by
  constructor
  · rintro ⟨s', hrun, hread⟩ rfl
    have hmem := kernelRead_touches startAddr hstart hn hstart64 hrun
    rw [hread.moved.eq_nil] at hmem
    cases hmem
  · intro hpos
    unfold sdDevRead
    rw [if_neg (not_not.mpr hn), if_neg (not_not.mpr hstart)]
    simp only [Bool.false_eq_true, if_false]
    obtain ⟨r, hrun, hmem, htouched⟩ := sdRead_ok (E := E) s.card (BitVec.ofNat 64 dst) (startAddr / 512) (n / 512)
      (hlate (startAddr / 512)) (by omega) (by omega) (by omega) ⟨s.kernel, s.touched⟩
    have hlen : 512 * (n / 512) = n := by omega
    rw [hlen] at hmem
    -- the offset of an address in the buffer
    have hoff : ∀ i < n, (BitVec.ofNat 64 (dst + i) - BitVec.ofNat 64 dst).toNat = i := by
      intro i hi
      rw [BitVec.ofNat_add, BitVec.add_comm, BitVec.add_sub_cancel, BitVec.toNat_ofNat]
      exact Nat.mod_eq_of_lt (by omega)
    refine ⟨{ s with kernel := r.mem, touched := r.touched }, by rw [hrun]; rfl, fun b => ?_, rfl, rfl, fun i hi => ?_,
      fun a ha => ?_⟩
    · show b ∈ r.touched ↔ _
      rw [htouched, hs]
      exact ⟨fun h => h.resolve_left List.not_mem_nil, .inr⟩
    · show r.mem (BitVec.ofNat 64 (dst + i)) = _
      rw [hmem, hoff i hi, if_pos hi]
    · show r.mem a = s.kernel a
      rw [hmem, if_neg fun hin => ha _ hin ?_]
      rw [BitVec.ofNat_add, BitVec.ofNat_toNat, BitVec.setWidth_eq, BitVec.add_comm, BitVec.sub_add_cancel]

/-- **Writing for a process.** -/
theorem userWrite_iff (hbuf : A.Buffer Good dst n) (hgood : Good s.user)
    (hs : s.touched = []) (hlate : ∀ b, late b ≤ 10) (hstart : startAddr % 512 = 0) (hn : n % 512 = 0)
    (hstart64 : startAddr < 2 ^ 64) (hn64 : n < 2 ^ 64) :
    (∃ s', sdDevWrite A late true dst startAddr n s = .ok (0, s') ∧ UserWrite A dst (startAddr / 512) n s s') ↔ n ≠ 0 := by
  unfold sdDevWrite
  rw [if_neg (not_not.mpr hn), if_neg (not_not.mpr hstart)]
  simp only [if_true]
  constructor
  · rintro ⟨s', hrun, hwrite⟩ rfl
    obtain ⟨s₁, hloop, heq⟩ := Loop.map_ok hrun
    obtain ⟨-, rfl⟩ := Prod.mk.inj heq
    exact Countdown.run_first (Q := fun s => s.touched ≠ []) (fun _ h => userWriteTurn_touches h) (fun _ _ _ _ h => userWriteTurn_touches h)
      hloop hwrite.moved.eq_nil
  · intro hpos
    have hblocks : n / 512 ≠ 0 := by omega
    have hstart₀ : Writing (fun j => A.byte s.user (A.addr (dst + j))) (startAddr / 512) s 0 s := by
      refine ⟨fun b => ?_, rfl, fun j hj => absurd hj (Nat.not_lt_zero j), fun _ _ => rfl⟩
      rw [hs]
      exact iff_of_false List.not_mem_nil (by omega)
    obtain ⟨s', hrun, -, hsame, h⟩ := Countdown.run_invariant (userWriteTurn A late dst (startAddr / 512)) .endless
      (n := n / 512) (P := fun i s₁ => Good s₁.user ∧ (∀ x, A.byte s₁.user x = A.byte s.user x) ∧
        Writing (fun j => A.byte s.user (A.addr (dst + j))) (startAddr / 512) s i s₁)
      (by omega) ⟨hgood, fun _ => rfl, hstart₀⟩ fun j hj s₁ h₁ => by
        rw [Countdown.turns_of_pos hblocks] at hj
        exact h₁.2.2.userTurn h₁.1 h₁.2.1 hbuf hlate (by omega) (by omega)
    rw [Countdown.turns_of_pos hblocks] at h
    have hlen : 512 * (n / 512) = n := by omega
    have hbytes := h.blocks
    rw [hlen] at hbytes
    exact ⟨s', by rw [hrun]; rfl, h.moved, h.kernel, hsame, hbytes, h.rest⟩

/-- **Writing for the kernel.** -/
theorem kernelWrite_iff (hs : s.touched = []) (hlate : ∀ b, late b ≤ 10)
    (hstart : startAddr % 512 = 0) (hn : n % 512 = 0) (hstart64 : startAddr < 2 ^ 64) (hn64 : n < 2 ^ 64) :
    (∃ s', sdDevWrite A late false dst startAddr n s = .ok (0, s') ∧ KernelWrite dst (startAddr / 512) n s s') ↔
      n ≠ 0 := by
  unfold sdDevWrite
  rw [if_neg (not_not.mpr hn), if_neg (not_not.mpr hstart)]
  simp only [Bool.false_eq_true, if_false]
  constructor
  · rintro ⟨s', hrun, hwrite⟩ rfl
    obtain ⟨s₁, hloop, heq⟩ := Loop.map_ok hrun
    obtain ⟨-, rfl⟩ := Prod.mk.inj heq
    exact Countdown.run_first (Q := fun s => s.touched ≠ []) (fun _ h => kernelWriteTurn_touches h)
      (fun _ _ _ _ h => kernelWriteTurn_touches h) hloop hwrite.moved.eq_nil
  · intro hpos
    have hblocks : n / 512 ≠ 0 := by omega
    have hstart₀ : Writing (fun j => some (s.kernel (BitVec.ofNat 64 (dst + j)))) (startAddr / 512) s 0 s := by
      refine ⟨fun b => ?_, rfl, fun j hj => absurd hj (Nat.not_lt_zero j), fun _ _ => rfl⟩
      rw [hs]
      exact iff_of_false List.not_mem_nil (by omega)
    obtain ⟨s', hrun, hsame, h⟩ := Countdown.run_invariant
      (kernelWriteTurn (E := E) late (BitVec.ofNat 64 dst) (startAddr / 512)) .endless (n := n / 512) (P := fun i s₁ => s₁.user = s.user ∧
        Writing (fun j => some (s.kernel (BitVec.ofNat 64 (dst + j)))) (startAddr / 512) s i s₁)
      (by omega) ⟨rfl, hstart₀⟩ fun j hj s₁ h₁ => by
        rw [Countdown.turns_of_pos hblocks] at hj
        obtain ⟨s₂, hturn, huser, hnext⟩ := h₁.2.kernelTurn (E := E) hlate (by omega)
        exact ⟨s₂, hturn, huser.trans h₁.1, hnext⟩
    rw [Countdown.turns_of_pos hblocks] at h
    have hlen : 512 * (n / 512) = n := by omega
    have hbytes := h.blocks
    rw [hlen] at hbytes
    exact ⟨s', by rw [hrun]; rfl, h.moved, h.kernel, hsame, fun i hi => Option.some.inj (hbytes i hi), h.rest⟩

/-- **Transfers.** For addresses and lengths of whole blocks, with a card that answers within the tries there are,
each of the four transfers does what it is there for exactly if there is a block to move. -/
theorem sdDev_iff (startAddr : Nat) (lateRead : Nat → List Nat) (lateWrite : Nat → Nat) (hbuf : A.Buffer Good dst n)
    (hgood : Good s.user) (hs : s.touched = []) (hlateRead : ∀ b, (lateRead b).length ≤ 10)
    (hlateWrite : ∀ b, lateWrite b ≤ 10) (hstart : startAddr % 512 = 0) (hn : n % 512 = 0)
    (hstart64 : startAddr < 2 ^ 64) (hn64 : n < 2 ^ 64) :
    ((∃ s', sdDevRead A lateRead true dst startAddr n s = .ok (0, s') ∧ UserRead A dst (startAddr / 512) n s s') ↔
      n ≠ 0) ∧
    ((∃ s', sdDevRead A lateRead false dst startAddr n s = .ok (0, s') ∧ KernelRead dst (startAddr / 512) n s s') ↔
      n ≠ 0) ∧
    ((∃ s', sdDevWrite A lateWrite true dst startAddr n s = .ok (0, s') ∧ UserWrite A dst (startAddr / 512) n s s') ↔
      n ≠ 0) ∧
    ((∃ s', sdDevWrite A lateWrite false dst startAddr n s = .ok (0, s') ∧ KernelWrite dst (startAddr / 512) n s s') ↔
      n ≠ 0) :=
  ⟨userRead_iff hbuf hgood hs hlateRead hstart hn hstart64 hn64,
    kernelRead_iff hbuf.bound hs hlateRead hstart hn hstart64 hn64,
    userWrite_iff hbuf hgood hs hlateWrite hstart hn hstart64 hn64,
    kernelWrite_iff hs hlateWrite hstart hn hstart64 hn64⟩

/-- Memory in which a process has the bytes at their addresses. -/
def flat : Access (Nat → UInt8) Unit Nat where
  byte m a := some (m a)
  addr := id
  copyout va src m := .ok fun a => if va ≤ a ∧ a < va + src.length then src.getD (a - va) 0 else m a
  copyin va len m := .ok ((List.range len).map fun i => m (va + i), m)

theorem flat_buffer {dst n : Nat} (h : dst + n ≤ 2 ^ 64) : flat.Buffer (fun _ => True) dst n := by
  refine ⟨h, fun i j _ _ heq => Nat.add_left_cancel heq, fun m va src _ _ _ => ⟨_, rfl, trivial, fun i hi => ?_,
    fun x hx => ?_⟩, fun m va len _ _ _ => ⟨_, m, rfl, trivial, ?_, fun _ => rfl⟩⟩
  · show some (if va ≤ va + i ∧ va + i < va + src.length then src.getD (va + i - va) 0 else m (va + i)) = src[i]?
    rw [if_pos (by omega), Nat.add_sub_cancel_left, List.getD_eq_getElem _ _ hi, List.getElem?_eq_getElem hi]
  · show some (if va ≤ x ∧ x < va + src.length then src.getD (x - va) 0 else m x) = some (m x)
    refine congrArg some (if_neg fun hin => hx (x - va) (by omega) ?_)
    exact (Nat.add_sub_cancel' hin.1).symm
  · rw [List.map_map]
    rfl

/-- Blocks that are told apart by their number, and memory of zeros. -/
def fresh : State (Nat → UInt8) := ⟨fun _ => 0, fun _ => 0, fun b _ => UInt8.ofNat b, []⟩

/-- Two blocks read for a process. -/
theorem sdDev_two : ∃ s', sdDevRead flat (fun _ => [0]) true 4096 512 1024 fresh = .ok (0, s') ∧
    UserRead flat 4096 1 1024 fresh s' := by
  have hbuf : flat.Buffer (fun _ => True) 4096 1024 := flat_buffer (by decide)
  exact (sdDev_iff 512 (fun _ => [0]) (fun _ => 0) hbuf trivial rfl
    (fun _ => by decide) (fun _ => by decide) rfl rfl (by decide) (by decide)).1.mpr (by decide)

/-- A read of nothing by the kernel does not leave the block at its start alone. -/
theorem sdDev_nothing : ¬ (∃ s', sdDevRead flat (fun _ => []) false 4096 512 0 fresh = .ok (0, s') ∧
    KernelRead 4096 1 0 fresh s') ∧
    ∀ s', sdDevRead flat (fun _ => []) false 4096 512 0 fresh = .ok (0, s') → 1 ∈ s'.touched := by
  constructor
  · intro h
    have hrun : (∃ s', sdDevRead flat (fun _ => []) false 4096 512 0 fresh = .ok (0, s') ∧
        KernelRead 4096 (512 / 512) 0 fresh s') := h
    have hlate : ∀ b : Nat, ((fun _ => []) b : List Nat).length ≤ 10 := fun _ => Nat.zero_le 10
    exact (kernelRead_iff (by decide) rfl hlate rfl rfl (by decide) (by decide)).mp hrun rfl
  · exact fun s' hrun => kernelRead_touches 512 rfl rfl (by decide) hrun

end Transfers

/-! ## The memory of a process -/

section Process

variable (img : Image) (dirs : Finset Ppn) (segs : Ppn → List SegmentMap) (pages : Ppn → Nat → Idx → BitVec 64)
  (d : Ppn)

/-- The memory of the process with directory `d`; its bytes are those of all processes. -/
def processAccess : Access Mem Panic (Ppn × Nat) where
  byte m x := if x.1 ∈ dirs ∧ x.2 < VA_MAX then spaceByte segs pages m x.1 x.2 else none
  addr va := (d, va)
  copyout := Exaros.copyout (segs d) (pages d) d
  copyin := Exaros.copyin (segs d) (pages d) d

/-- The pages from `lo` to `hi` are a region of the process's own, and all there. -/
structure Resident (lo hi : Nat) (m : Mem) : Prop where
  region : Region img dirs (segs d) m d lo hi
  mapped : ∀ a, lo ≤ a → a < hi → ∃ e, view m d (vpn a) = some e ∧ pteHas e PTE_USER_BIT = true ∧
    pteHas e PTE_COW_BIT = false

variable {img dirs segs pages d} {lo hi va len fuel : Nat} {m m' : Mem} {bytes : List UInt8}

/-- `copyin` of pages that are there changes nothing. -/
theorem Resident.copyin (h : Resident img dirs segs d lo hi m) (hmax : hi ≤ VA_MAX) (hlo : lo ≤ va) (hhi : va + len ≤ hi)
    (hok : copyinLoop (segs d) (pages d) d fuel va len m = .ok (bytes, m')) : m' = m := by
  induction fuel generalizing va len bytes with
  | zero =>
    cases len with
    | zero =>
      cases hok
      rfl
    | succ len => cases hok
  | succ fuel ih =>
    cases len with
    | zero =>
      cases hok
      rfl
    | succ len =>
      obtain ⟨e, hv, huser, hcow⟩ := h.mapped va hlo (by omega)
      have hpa := va2PA_of_view (by omega) hv huser
      rw [hcow] at hpa
      have hpage : copyPage (segs d) (pages d (alignDown va)) d va m = .ok m := by
        unfold copyPage
        simp only [hpa, bind, Except.bind, pure, Except.pure]
      rw [copyinLoop, hpage, Loop.ok_bind, hpa] at hok
      obtain ⟨⟨rest, m₁⟩, hrest, hok⟩ := Loop.bind_ok hok
      cases hok
      have hwrap : u64 (va + min (PAGE_SIZE - (pte2Ppn e <<< PAGE_SHIFT + vaOffset va) % PAGE_SIZE) (len + 1)) =
          va + min (PAGE_SIZE - (pte2Ppn e <<< PAGE_SHIFT + vaOffset va) % PAGE_SIZE) (len + 1) := by
        have : VA_MAX < 2 ^ 64 := by decide
        exact Nat.mod_eq_of_lt (by omega)
      rw [hwrap] at hrest
      exact ih (by omega) (by omega) hrest

variable (img pages) in
/-- **A process's own pages are a buffer.** -/
theorem processAccess_buffer {dst n : Nat} (hd : d ∈ dirs) (hmax : hi ≤ VA_MAX) (hlo : lo ≤ dst) (hhi : dst + n ≤ hi) :
    (processAccess dirs segs pages d).Buffer (Resident img dirs segs d lo hi) dst n := by
  have hva : VA_MAX < 2 ^ 64 := by decide
  have hbyte : ∀ (m : Mem) {d' : Ppn} {a : Nat}, d' ∈ dirs → a < VA_MAX →
      (processAccess dirs segs pages d).byte m (d', a) = spaceByte segs pages m d' a := fun m _ _ hd' ha => if_pos ⟨hd', ha⟩
  refine ⟨by omega, fun i j _ _ heq => ?_, fun m va src h hva' hlen => ?_, fun m va len h hva' hlen => ?_⟩
  · have := (Prod.mk.inj heq).2
    omega
  · have hrange : va + src.length ≤ VA_MAX := by omega
    obtain ⟨m', hrun, -, hplain, -, hviews, -⟩ := h.region.inv.copyoutLoop segs pages hd hrange
      (fun a ha hlt => h.region.accessible a (by omega) (by omega)) (.inl fun a ha hlt => by
        obtain ⟨e, hv, -, hcow⟩ := h.mapped a (by omega) (by omega)
        exact ⟨e, hv, hcow⟩) (Nat.le_refl src.length)
    obtain ⟨hregion, hset, hoff, -⟩ := h.region.copyoutLoop segs pages hd hmax (by omega) (by omega) hrun
    refine ⟨m', hrun, ⟨hregion, fun a ha hlt => ?_⟩, fun i hi => ?_, fun x hx => ?_⟩
    · by_cases hpage : ∃ b, va ≤ b ∧ b < va + src.length ∧ vpn a = vpn b
      · obtain ⟨b, hb, hb', heq⟩ := hpage
        obtain ⟨e, hv, huser, hcow⟩ := hplain b hb hb'
        exact ⟨e, heq ▸ hv, huser, hcow⟩
      · rw [hviews d hd (vpn a) fun b hb hb' heq => hpage ⟨b, hb, hb', heq.2⟩]
        exact h.mapped a ha hlt
    · have ha : va + i < VA_MAX := by omega
      exact (hbyte m' hd ha).trans (hset i hi)
    · obtain ⟨d', a⟩ := x
      by_cases hin : d' ∈ dirs ∧ a < VA_MAX
      · rw [hbyte m' hin.1 hin.2, hbyte m hin.1 hin.2]
        apply hoff d' hin.1 a hin.2
        rintro ⟨rfl, hge, hlt⟩
        refine hx (a - va) (by omega) ?_
        show (d', a) = (d', va + (a - va))
        rw [Nat.add_sub_cancel' hge]
      · exact (if_neg hin).trans (if_neg hin).symm
  · have hrange : va + len ≤ VA_MAX := by omega
    obtain ⟨bytes, m', hrun, -, hbytes, -⟩ := h.region.inv.copyinLoop segs pages hd hrange
      (fun a ha hlt => h.region.accessible a (by omega) (by omega)) (.inl fun a ha hlt => by
        obtain ⟨e, hv, -, hcow⟩ := h.mapped a (by omega) (by omega)
        exact ⟨e, hv, hcow⟩) (Nat.le_refl len)
    obtain rfl := h.copyin hmax (by omega) (by omega) hrun
    refine ⟨bytes, m', hrun, h, hbytes.trans ?_, fun _ => rfl⟩
    apply List.map_congr_left
    intro i hi
    have hlt := List.mem_range.mp hi
    have ha : va + i < VA_MAX := by omega
    exact (hbyte m' hd ha).symm

end Process

/-- The last block of a stack. -/
theorem processAccess_buffer_stack : ∃ dirs d m, Resident Image.sample dirs (fun _ => []) d (USER_STACK_TOP - 512) USER_STACK_TOP m ∧
    (processAccess dirs (fun _ => []) (fun _ _ _ => 0) d).Buffer
      (Resident Image.sample dirs (fun _ => []) d (USER_STACK_TOP - 512) USER_STACK_TOP) (USER_STACK_TOP - 512) 512 := by
  obtain ⟨dirs, d, m, hinv, hd, -, hlen, hempty⟩ := exists_emptyProcess
  have htop : USER_STACK_TOP = 0x3fffffd000 := by decide
  have hlow : USER_STACK_BOTTOM ≤ USER_STACK_TOP - 512 := by decide
  have R := Region.of_unmapped hinv [] fun a _ _ => hempty (vpn a)
  obtain ⟨m₁, e, -, r⟩ := hinv.ready_copyPage (fun _ => []) (fun _ _ _ => 0) hd (by decide)
    (R.accessible (USER_STACK_TOP - 512) hlow (by decide)) (.inr (by omega))
  have R₁ := R.ready hd r
  refine ⟨dirs, d, m₁, ⟨⟨r.inv, fun a hlo => R₁.accessible a (hlow.trans hlo), fun a hlo => R₁.sole a (hlow.trans hlo)⟩,
    fun a hlo hhi => ⟨e, ?_, r.user, r.plain⟩⟩,
    processAccess_buffer Image.sample (fun _ _ _ => 0) hd (by decide) (Nat.le_refl _) (by decide)⟩
  have hpage : a / PAGE_SIZE = (USER_STACK_TOP - 512) / PAGE_SIZE := by
    unfold PAGE_SIZE
    omega
  rw [vpn_congr hpage]
  exact r.self

end Exaros.Sd
