import Exaros.Lib.Loop
import Exaros.Memory.Bytes

/-!
# Lengths from user mode

Handlers that copy what a user points at into an object of the kernel, with a length the user names. Each returns the ranges it
stores to until it returns or a page of the user cannot be brought in, so that a copy that panics half way counts with what it has
stored. What a handler does with the object afterwards stays within it and is left out, but for the byte `sendTo` stores at `buf[len]`.
-/

namespace Exaros.Trap

open Loop

def CPU_SETSIZE : Nat := 1024
def FAT32_MAX_FILENAME : Nat := 255
def FAT32_MAX_PATH : Nat := 260

/-- The objects of the kernel the handlers store to. -/
inductive Object
  | cpuset
  /-- `th->cpuset` -/
  | threadCpuset
  | sa
  /-- `static char buf[PAGE_SIZE]` of `syscallSendTo` -/
  | sendBuf
  /-- `static char buf[PAGE_SIZE * 10]` of `socket_write` -/
  | writeBuf
  | imagePath
  | mountPath
  | type
  | data
  deriving DecidableEq

/-- `sizeof` -/
def Object.size : Object → Nat
  | .cpuset | .threadCpuset => CPU_SETSIZE / 8
  | .sa => 16
  | .sendBuf => PAGE_SIZE
  | .writeBuf => PAGE_SIZE * 10
  | .imagePath | .mountPath => FAT32_MAX_FILENAME
  | .type | .data => 10

/-- The bytes of `object` from `start` to before `stop` are stored to. -/
structure Range where
  object : Object
  start : Nat
  stop : Nat

/-- Every byte stored lies in its object. -/
def Inside (stores : List Range) : Prop := ∀ r ∈ stores, r.stop ≤ r.object.size

/-- The first `n` bytes of an object. -/
def front (object : Object) (n : Nat) : Range := ⟨object, 0, n⟩

/-! ## Copying from the user -/

section Copy

variable (segs : List SegmentMap) (pages : Nat → Idx → BitVec 64) (pgdir : Ppn)

/-- The loop of `copyin`: the bytes stored, and memory, if it returns. -/
def copyinInto : Nat → Nat → Nat → Mem → List UInt8 × Option Mem
  | _, _, 0, m => ([], some m)
  | 0, _, _ + 1, _ => ([], none)
  | fuel + 1, va, len + 1, m =>
    match copyPage segs (pages (alignDown va)) pgdir va m with
    | .error _ => ([], none)
    | .ok m =>
      match va2PA pgdir va m with
      | none => ([], none)
      | some (pa, _) =>
        let n := min (PAGE_SIZE - pa % PAGE_SIZE) (len + 1)
        let r := copyinInto fuel (u64 (va + n)) (len + 1 - n) m
        (loadBytes m pa n ++ r.1, r.2)

/-- The inner loop of `copyInstr`: up to a null byte, and whether there was one. -/
def copyBytes (m : Mem) : Nat → Nat → List UInt8 × Bool
  | 0, _ => ([], false)
  | n + 1, p =>
    if loadByte m p = 0 then ([0], true)
    else
      let r := copyBytes m n (p + 1)
      (loadByte m p :: r.1, r.2)

/-- The address of the start of a page, as `copyInstr` looks it up. -/
def instrPage (va0 : Nat) (m : Mem) : Except Panic (Nat × Mem) :=
  match va2PA pgdir va0 m with
  | none => passiveAlloc segs (pages va0) pgdir va0 m
  | some (pa0, _) => .ok (pa0, m)

/-- `copyInstr`: the bytes stored, and whether it found a null byte, with memory, if it returns. -/
def copyInstr : Nat → Nat → Nat → Mem → List UInt8 × Option (Bool × Mem)
  | _, _, 0, m => ([], some (false, m))
  | 0, _, _ + 1, _ => ([], none)
  | fuel + 1, srcva, max + 1, m =>
    let va0 := alignDown srcva
    match instrPage segs pages pgdir va0 m with
    | .error _ => ([], none)
    | .ok (pa0, m) =>
      let n := min (PAGE_SIZE - (srcva - va0)) (max + 1)
      let b := copyBytes m n (pa0 + (srcva - va0))
      if b.2 then (b.1, some (true, m))
      else
        let r := copyInstr fuel (u64 (va0 + PAGE_SIZE)) (max + 1 - n) m
        (b.1 ++ r.1, r.2)

/-- The bytes at `va`, by the pages `copyInstr` looks up. -/
def readInstr : Nat → Nat → Nat → Mem → Option (List UInt8)
  | _, _, 0, _ => some []
  | 0, _, _ + 1, _ => none
  | fuel + 1, srcva, max + 1, m =>
    let va0 := alignDown srcva
    match instrPage segs pages pgdir va0 m with
    | .error _ => none
    | .ok (pa0, m) =>
      let n := min (PAGE_SIZE - (srcva - va0)) (max + 1)
      (readInstr fuel (u64 (va0 + PAGE_SIZE)) (max + 1 - n) m).map fun rest => loadBytes m (pa0 + (srcva - va0)) n ++ rest

/-- `copyin` of `len` bytes; each turn moves one at least. -/
def copyinStores (va len : Nat) (m : Mem) : List UInt8 × Option Mem := copyinInto segs pages pgdir len va len m

/-- `fetchstr`: the bytes stored, and the string with memory; no string is the error. -/
def fetchstr (uva max : Nat) (m : Mem) : List UInt8 × Option (Option (List UInt8) × Mem) :=
  let r := copyInstr segs pages pgdir max uva max m
  (r.1, r.2.map fun x => (if x.1 then some (r.1.takeWhile (· ≠ 0)) else none, x.2))

/-! ## The handlers -/

/-- `syscallSchedSetaffinity`; `th` is whether `tid2Thread` finds the thread. -/
def syscallSchedSetaffinity (th : Bool) (cpusetsize addr : Nat) (m : Mem) : List Range :=
  let r := copyinStores segs pages pgdir addr cpusetsize m
  front .cpuset r.1.length :: if r.2.isSome && th then [front .threadCpuset (cpusetsize % 2 ^ 32)] else []

/-- `syscallSchedGetaffinity` before it copies the set to the user. -/
def syscallSchedGetaffinity (th : Bool) (cpusetsize : Nat) : List Range :=
  if th then [front .cpuset (cpusetsize % 2 ^ 32)] else []

def syscallBind (addr len : Nat) (m : Mem) : List Range := [front .sa (copyinStores segs pages pgdir addr len m).1.length]

def syscallConnect (addr len : Nat) (m : Mem) : List Range := [front .sa (copyinStores segs pages pgdir addr len m).1.length]

/-- The store at `buf[len]`, with `len` an `u32`. -/
def sendTo (buf : Object) (len : Nat) : Range := ⟨buf, len % 2 ^ 32, len % 2 ^ 32 + 1⟩

/-- `syscallSendTo`; `file` is whether `ofile[a0]` is a file at all. `sendTo` stores `buf[len]` before it looks at the
socket, so a file of any kind will do, and only a NULL stops the call before. -/
def syscallSendTo (file : Bool) (a1 a2 a4 a5 : Nat) (m : Mem) : List Range :=
  let sa := copyinStores segs pages pgdir a4 a5 m
  front .sa sa.1.length ::
    match sa.2 with
    | none => []
    | some m =>
      let buf := copyinStores segs pages pgdir a1 (min a2 PAGE_SIZE) m
      front .sendBuf buf.1.length :: if buf.2.isSome && file then [sendTo .sendBuf a2] else []

/-- An `int` passed as an `u64`. -/
def asU64 (n : Int) : Nat := (n % 2 ^ 64).toNat

/-- `socket_write`; from the kernel `either_copyin` is a `memmove`, whose length is an `u32`. -/
def socket_write (isUser : Bool) (addr : Nat) (n : Int) (m : Mem) : List Range :=
  if isUser then
    let r := copyinStores segs pages pgdir addr (asU64 n) m
    front .writeBuf r.1.length :: if r.2.isSome then [sendTo .writeBuf (asU64 n)] else []
  else [front .writeBuf (asU64 n % 2 ^ 32), sendTo .writeBuf (asU64 n)]

/-- The paths of `syscallMount` and `data`; `metaName` is whether there is a file of that name. -/
def syscallMountPaths (metaName : List UInt8 → Bool) (imagePathUva mountPathUva dataUva : Nat) (m : Mem) : List Range :=
  let image := fetchstr segs pages pgdir imagePathUva FAT32_MAX_PATH m
  front .imagePath image.1.length ::
    match image.2 with
    | some (some s, m) =>
      if metaName s then
        let mount := fetchstr segs pages pgdir mountPathUva FAT32_MAX_PATH m
        front .mountPath mount.1.length ::
          match mount.2 with
          | some (some s, m) =>
            if metaName s && dataUva ≠ 0 then [front .data (fetchstr segs pages pgdir dataUva 10 m).1.length] else []
          | _ => []
      else []
    | _ => []

def syscallMount (metaName : List UInt8 → Bool) (imagePathUva mountPathUva typeUva dataUva : Nat) (m : Mem) : List Range :=
  let type := fetchstr segs pages pgdir typeUva 10 m
  front .type type.1.length ::
    match type.2 with
    | some (some s, m) =>
      if s.take 4 ≠ [118, 102, 97, 116] then [] else syscallMountPaths segs pages pgdir metaName imagePathUva mountPathUva dataUva m
    | _ => []

/-! ## How far a copy comes -/

/-- The first `n` bytes at `va` can be brought in. -/
def Reaches (va n : Nat) (m : Mem) : Prop := ∃ r, copyin segs pages pgdir va n m = .ok r

/-- There are `FAT32_MAX_FILENAME + 1` bytes at `va`, and the string they begin with does not end before the last. -/
def Overlong (va : Nat) (m : Mem) : Prop :=
  ∃ bytes, readInstr segs pages pgdir (FAT32_MAX_FILENAME + 1) va (FAT32_MAX_FILENAME + 1) m = some bytes ∧
    ∀ c ∈ bytes.take FAT32_MAX_FILENAME, c ≠ 0

end Copy

section Length

variable {segs : List SegmentMap} {pages : Nat → Idx → BitVec 64} {pgdir : Ppn} {fuel fuel' va len n max : Nat} {m : Mem}

theorem length_loadBytes (m : Mem) (pa n : Nat) : (loadBytes m pa n).length = n := by
  unfold loadBytes
  rw [List.length_map, List.length_range]

theorem chunk_pos (pa : Nat) : 0 < PAGE_SIZE - pa % PAGE_SIZE := Nat.sub_pos_of_lt (Nat.mod_lt _ (by decide))

variable (segs pages pgdir fuel va len m) in
theorem copyinInto_length_le : (copyinInto segs pages pgdir fuel va len m).1.length ≤ len := by
  induction fuel generalizing va len m with
  | zero =>
    cases len with
    | zero => exact le_rfl
    | succ len => exact Nat.zero_le _
  | succ fuel ih =>
    cases len with
    | zero => exact le_rfl
    | succ len =>
      unfold copyinInto
      split
      · exact Nat.zero_le _
      · rename_i m₁ _
        split
        · exact Nat.zero_le _
        · rename_i pa c _
          have hrest := ih (u64 (va + min (PAGE_SIZE - pa % PAGE_SIZE) (len + 1)))
            (len + 1 - min (PAGE_SIZE - pa % PAGE_SIZE) (len + 1)) m₁
          rw [List.length_append, length_loadBytes]
          omega

/-- A copy that returns has stored everything, as `copyin` delivers it. -/
theorem copyinInto_some {bytes : List UInt8} {m' : Mem} :
    copyinInto segs pages pgdir fuel va len m = (bytes, some m') ↔ copyinLoop segs pages pgdir fuel va len m = .ok (bytes, m') := by
  induction fuel generalizing va len m bytes with
  | zero =>
    cases len with
    | zero => exact ⟨fun h => (by cases h; rfl), fun h => (by cases h; rfl)⟩
    | succ len => exact ⟨fun h => (by cases h), fun h => (by cases h)⟩
  | succ fuel ih =>
    cases len with
    | zero => exact ⟨fun h => (by cases h; rfl), fun h => (by cases h; rfl)⟩
    | succ len =>
      unfold copyinInto copyinLoop
      cases hpage : copyPage segs (pages (alignDown va)) pgdir va m with
      | error e => exact ⟨fun h => (by cases h), fun h => (by cases h)⟩
      | ok m₁ =>
        rw [ok_bind]
        dsimp only
        cases hpa : va2PA pgdir va m₁ with
        | none => exact ⟨fun h => (by cases h), fun h => (by cases h)⟩
        | some x =>
          obtain ⟨pa, c⟩ := x
          dsimp only
          constructor
          · intro h
            obtain ⟨rfl, hrest⟩ := Prod.mk.inj h
            rw [ih.mp (Prod.ext rfl hrest)]
            rfl
          · intro h
            obtain ⟨⟨rest, m₂⟩, hrest, hx⟩ := bind_ok h
            cases hx
            rw [ih.mpr hrest]

/-- **A copy stores more than `n` bytes** exactly if there are more to copy and the first `n + 1` can be brought in. -/
theorem lt_copyinInto_length (hfuel : len ≤ fuel) (hfuel' : n < fuel') :
    n < (copyinInto segs pages pgdir fuel va len m).1.length ↔
      n < len ∧ ∃ r, copyinLoop segs pages pgdir fuel' va (n + 1) m = .ok r := by
  induction fuel generalizing va len m n fuel' with
  | zero =>
    obtain rfl : len = 0 := by omega
    exact ⟨fun h => absurd h (Nat.not_lt_zero n), fun h => absurd h.1 (Nat.not_lt_zero n)⟩
  | succ fuel ih =>
    cases len with
    | zero => exact ⟨fun h => absurd h (Nat.not_lt_zero n), fun h => absurd h.1 (Nat.not_lt_zero n)⟩
    | succ len =>
      obtain ⟨fuel', rfl⟩ : ∃ f, fuel' = f + 1 := ⟨fuel' - 1, by omega⟩
      unfold copyinInto copyinLoop
      cases hpage : copyPage segs (pages (alignDown va)) pgdir va m with
      | error e => exact ⟨fun h => absurd h (Nat.not_lt_zero n), fun ⟨_, r, hr⟩ => by cases hr⟩
      | ok m₁ =>
        rw [ok_bind]
        dsimp only
        cases hpa : va2PA pgdir va m₁ with
        | none => exact ⟨fun h => absurd h (Nat.not_lt_zero n), fun ⟨_, r, hr⟩ => by cases hr⟩
        | some x =>
          obtain ⟨pa, c⟩ := x
          dsimp only
          have hpos := chunk_pos pa
          generalize PAGE_SIZE - pa % PAGE_SIZE = chunk at hpos ⊢
          rw [List.length_append, length_loadBytes]
          have hle := copyinInto_length_le segs pages pgdir fuel (u64 (va + min chunk (len + 1))) (len + 1 - min chunk (len + 1)) m₁
          by_cases hlast : n + 1 ≤ chunk
          · -- the page of the last byte
            have hok : ∃ r, copyinLoop segs pages pgdir fuel' (u64 (va + min chunk (n + 1))) (n + 1 - min chunk (n + 1)) m₁ = .ok r := by
              rw [Nat.min_eq_right hlast, Nat.sub_self]
              cases fuel' with
              | zero => exact ⟨_, rfl⟩
              | succ f => exact ⟨_, rfl⟩
            obtain ⟨⟨rest, m₂⟩, hrest⟩ := hok
            rw [hrest]
            exact ⟨fun h => ⟨by omega, _, rfl⟩, fun h => by omega⟩
          · rw [Nat.min_eq_left (by omega : chunk ≤ n + 1)]
            by_cases hall : len + 1 ≤ chunk
            · exact ⟨fun h => by omega, fun h => by omega⟩
            · rw [Nat.min_eq_left (by omega : chunk ≤ len + 1)]
              have hnext : n - chunk < (copyinInto segs pages pgdir fuel (u64 (va + chunk)) (len + 1 - chunk) m₁).1.length ↔
                  n - chunk < len + 1 - chunk ∧ ∃ r, copyinLoop segs pages pgdir fuel' (u64 (va + chunk)) (n - chunk + 1) m₁ = .ok r :=
                ih (by omega) (by omega)
              rw [show n - chunk + 1 = n + 1 - chunk by omega] at hnext
              constructor
              · intro h
                obtain ⟨hlt, ⟨rest, m₂⟩, hrest⟩ := hnext.mp (by omega)
                refine ⟨by omega, (loadBytes m₁ pa chunk ++ rest, m₂), ?_⟩
                rw [hrest]
                rfl
              · rintro ⟨hlt, r, hr⟩
                obtain ⟨x, hrest, -⟩ := bind_ok hr
                have := hnext.mpr ⟨by omega, x, hrest⟩
                omega

/-! ### Strings -/

theorem copyBytes_length_le (m : Mem) (k p : Nat) : (copyBytes m k p).1.length ≤ k := by
  induction k generalizing p with
  | zero => exact le_rfl
  | succ k ih =>
    unfold copyBytes
    split
    · exact Nat.succ_le_succ (Nat.zero_le k)
    · exact Nat.succ_le_succ (ih (p + 1))

/-- Byte `n` is stored if none before it is null. -/
theorem lt_copyBytes_length (m : Mem) (n k p : Nat) :
    n < (copyBytes m k p).1.length ↔ n < k ∧ ∀ i < n, loadByte m (p + i) ≠ 0 := by
  induction k generalizing n p with
  | zero => exact ⟨fun h => absurd h (Nat.not_lt_zero n), fun h => absurd h.1 (Nat.not_lt_zero n)⟩
  | succ k ih =>
    unfold copyBytes
    cases n with
    | zero =>
      refine ⟨fun _ => ⟨Nat.succ_pos k, fun i hi => absurd hi (Nat.not_lt_zero i)⟩, fun _ => ?_⟩
      split
      · exact Nat.zero_lt_one
      · exact Nat.succ_pos _
    | succ n =>
      split
      · rename_i hnull
        exact ⟨fun h => absurd (Nat.lt_of_succ_lt_succ h) (Nat.not_lt_zero n), fun h => absurd hnull (h.2 0 (Nat.succ_pos n))⟩
      · rename_i hne
        have hrest : n < (copyBytes m k (p + 1)).1.length ↔ n < k ∧ ∀ i < n, loadByte m (p + (i + 1)) ≠ 0 := by
          rw [ih n (p + 1)]
          simp only [Nat.add_assoc, Nat.add_comm 1]
        refine ⟨fun h => ?_, fun h => Nat.succ_lt_succ (hrest.mpr ⟨Nat.lt_of_succ_lt_succ h.1, fun i hi => h.2 (i + 1) (Nat.succ_lt_succ hi)⟩)⟩
        obtain ⟨hlt, hall⟩ := hrest.mp (Nat.lt_of_succ_lt_succ h)
        refine ⟨Nat.succ_lt_succ hlt, fun i hi => ?_⟩
        cases i with
        | zero => exact hne
        | succ i => exact hall i (Nat.lt_of_succ_lt_succ hi)

/-- Without a null byte all are stored. -/
theorem copyBytes_none (m : Mem) (k p : Nat) : (copyBytes m k p).2 = false ↔ ∀ i < k, loadByte m (p + i) ≠ 0 := by
  induction k generalizing p with
  | zero => exact ⟨fun _ i hi => absurd hi (Nat.not_lt_zero i), fun _ => rfl⟩
  | succ k ih =>
    unfold copyBytes
    split
    · rename_i hnull
      exact ⟨fun h => (by cases h), fun h => absurd hnull (h 0 (Nat.succ_pos k))⟩
    · rename_i hne
      have hrest : (copyBytes m k (p + 1)).2 = false ↔ ∀ i < k, loadByte m (p + (i + 1)) ≠ 0 := by
        rw [ih (p + 1)]
        simp only [Nat.add_assoc, Nat.add_comm 1]
      refine ⟨fun h i hi => ?_, fun h => hrest.mpr fun i hi => h (i + 1) (Nat.succ_lt_succ hi)⟩
      cases i with
      | zero => exact hne
      | succ i => exact hrest.mp h i (Nat.lt_of_succ_lt_succ hi)

theorem copyBytes_none_length {k p : Nat} (h : (copyBytes m k p).2 = false) : (copyBytes m k p).1.length = k := by
  cases k with
  | zero => rfl
  | succ k =>
    have hall := (copyBytes_none m (k + 1) p).mp h
    have hlt := (lt_copyBytes_length m k (k + 1) p).mpr ⟨Nat.lt_succ_self k, fun i hi => hall i (Nat.lt_succ_of_lt hi)⟩
    have hle := copyBytes_length_le m (k + 1) p
    omega

theorem page_chunk_pos (va : Nat) : 0 < PAGE_SIZE - (va - alignDown va) := by
  unfold alignDown PAGE_SIZE
  omega

variable (segs pages pgdir fuel va max m) in
theorem copyInstr_length_le : (copyInstr segs pages pgdir fuel va max m).1.length ≤ max := by
  induction fuel generalizing va max m with
  | zero =>
    cases max with
    | zero => exact le_rfl
    | succ max => exact Nat.zero_le _
  | succ fuel ih =>
    cases max with
    | zero => exact le_rfl
    | succ max =>
      unfold copyInstr
      dsimp only
      split
      · exact Nat.zero_le _
      · rename_i pa0 m₁ _
        have hbytes := copyBytes_length_le m₁ (min (PAGE_SIZE - (va - alignDown va)) (max + 1)) (pa0 + (va - alignDown va))
        split
        · exact hbytes.trans (Nat.min_le_right _ _)
        · have hrest := ih (u64 (alignDown va + PAGE_SIZE)) (max + 1 - min (PAGE_SIZE - (va - alignDown va)) (max + 1)) m₁
          rw [List.length_append]
          omega

theorem mem_loadBytes {c : UInt8} {p k : Nat} : c ∈ loadBytes m p k ↔ ∃ i < k, loadByte m (p + i) = c := by
  unfold loadBytes
  simp only [List.mem_map, List.mem_range]

theorem take_loadBytes (m : Mem) (p k n : Nat) : (loadBytes m p k).take n = loadBytes m p (min n k) := by
  unfold loadBytes
  rw [← List.map_take, List.take_range]

/-- **`copyInstr` stores more than `n` bytes** exactly if it may and there are `n + 1` bytes, none of them null before the last. -/
theorem lt_copyInstr_length (hfuel : max ≤ fuel) (hfuel' : n < fuel') :
    n < (copyInstr segs pages pgdir fuel va max m).1.length ↔
      n < max ∧ ∃ bytes, readInstr segs pages pgdir fuel' va (n + 1) m = some bytes ∧ ∀ c ∈ bytes.take n, c ≠ 0 := by
  induction fuel generalizing va max m n fuel' with
  | zero =>
    obtain rfl : max = 0 := by omega
    exact ⟨fun h => absurd h (Nat.not_lt_zero n), fun h => absurd h.1 (Nat.not_lt_zero n)⟩
  | succ fuel ih =>
    cases max with
    | zero => exact ⟨fun h => absurd h (Nat.not_lt_zero n), fun h => absurd h.1 (Nat.not_lt_zero n)⟩
    | succ max =>
      obtain ⟨fuel', rfl⟩ : ∃ f, fuel' = f + 1 := ⟨fuel' - 1, by omega⟩
      unfold copyInstr readInstr
      dsimp only
      cases hpage : instrPage segs pages pgdir (alignDown va) m with
      | error e => exact ⟨fun h => absurd h (Nat.not_lt_zero n), fun ⟨_, r, hr, _⟩ => (by cases hr)⟩
      | ok x =>
        obtain ⟨pa0, m₁⟩ := x
        dsimp only
        have hpos := page_chunk_pos va
        generalize pa0 + (va - alignDown va) = p
        generalize PAGE_SIZE - (va - alignDown va) = chunk at hpos ⊢
        have hle := copyInstr_length_le segs pages pgdir fuel (u64 (alignDown va + PAGE_SIZE)) (max + 1 - min chunk (max + 1)) m₁
        generalize hk : min chunk (max + 1) = k at hle ⊢
        have hbytes := copyBytes_length_le m₁ k p
        have hlt := lt_copyBytes_length m₁ n k p
        by_cases hlast : n + 1 ≤ chunk
        · -- the page of the last byte
          have hread : readInstr segs pages pgdir fuel' (u64 (alignDown va + PAGE_SIZE)) (n + 1 - min chunk (n + 1)) m₁ = some [] := by
            rw [Nat.min_eq_right hlast, Nat.sub_self]
            cases fuel' with
            | zero => rfl
            | succ f => rfl
          rw [hread, Nat.min_eq_right hlast]
          have hcond : (∃ bytes, (some []).map (fun rest => loadBytes m₁ p (n + 1) ++ rest) = some bytes ∧ ∀ c ∈ bytes.take n, c ≠ 0) ↔
              ∀ i < n, loadByte m₁ (p + i) ≠ 0 := by
            rw [Option.map_some, List.append_nil]
            constructor
            · rintro ⟨bytes, hb, hne⟩ i hi
              cases hb
              refine hne _ ?_
              rw [take_loadBytes]
              exact mem_loadBytes.mpr ⟨i, by omega, rfl⟩
            · intro hall
              refine ⟨_, rfl, fun c hc => ?_⟩
              rw [take_loadBytes] at hc
              obtain ⟨i, hi, rfl⟩ := mem_loadBytes.mp hc
              exact hall i (by omega)
          rw [hcond]
          split
          · rw [hlt]
            exact and_congr_left fun _ => by omega
          · rename_i hnone
            have hnone : (copyBytes m₁ k p).2 = false := by simpa using hnone
            rw [List.length_append, copyBytes_none_length hnone]
            have hall := (copyBytes_none m₁ k p).mp hnone
            exact ⟨fun h => ⟨by omega, fun i hi => hall i (by omega)⟩, fun h => by omega⟩
        · rw [Nat.min_eq_left (by omega : chunk ≤ n + 1)]
          have htake : ∀ rest, (loadBytes m₁ p chunk ++ rest).take n = loadBytes m₁ p chunk ++ rest.take (n - chunk) := fun rest => by
            rw [List.take_append, take_loadBytes, length_loadBytes, Nat.min_eq_right (by omega)]
          have hcond : (∃ bytes, (readInstr segs pages pgdir fuel' (u64 (alignDown va + PAGE_SIZE)) (n + 1 - chunk) m₁).map
                (fun rest => loadBytes m₁ p chunk ++ rest) = some bytes ∧ ∀ c ∈ bytes.take n, c ≠ 0) ↔
              (∀ i < chunk, loadByte m₁ (p + i) ≠ 0) ∧
                ∃ rest, readInstr segs pages pgdir fuel' (u64 (alignDown va + PAGE_SIZE)) (n + 1 - chunk) m₁ = some rest ∧
                  ∀ c ∈ rest.take (n - chunk), c ≠ 0 := by
            constructor
            · rintro ⟨bytes, hb, hne⟩
              obtain ⟨rest, hrest, rfl⟩ := Option.map_eq_some_iff.mp hb
              rw [htake] at hne
              exact ⟨fun i hi => hne _ (List.mem_append_left _ (mem_loadBytes.mpr ⟨i, hi, rfl⟩)), rest, hrest,
                fun c hc => hne c (List.mem_append_right _ hc)⟩
            · rintro ⟨hall, rest, hrest, hne⟩
              refine ⟨_, Option.map_eq_some_iff.mpr ⟨rest, hrest, rfl⟩, fun c hc => ?_⟩
              rw [htake] at hc
              rcases List.mem_append.mp hc with hc | hc
              · obtain ⟨i, hi, rfl⟩ := mem_loadBytes.mp hc
                exact hall i hi
              · exact hne c hc
          rw [hcond]
          by_cases hshort : max + 1 ≤ chunk
          · refine ⟨fun h => ?_, fun h => by omega⟩
            have htotal : n < max + 1 := by
              split at h
              · exact Nat.lt_of_lt_of_le h (hbytes.trans (by omega))
              · rw [List.length_append] at h
                omega
            omega
          · obtain rfl : k = chunk := by omega
            split
            · rename_i hnull
              refine ⟨fun h => absurd (Nat.lt_of_lt_of_le h hbytes) (by omega), fun h => ?_⟩
              rw [(copyBytes_none m₁ k p).mpr h.2.1] at hnull
              cases hnull
            · rename_i hnone
              have hnone : (copyBytes m₁ k p).2 = false := by simpa using hnone
              rw [List.length_append, copyBytes_none_length hnone]
              have hnext : n - k < (copyInstr segs pages pgdir fuel (u64 (alignDown va + PAGE_SIZE)) (max + 1 - k) m₁).1.length ↔
                  n - k < max + 1 - k ∧ ∃ bytes, readInstr segs pages pgdir fuel' (u64 (alignDown va + PAGE_SIZE)) (n - k + 1) m₁ =
                    some bytes ∧ ∀ c ∈ bytes.take (n - k), c ≠ 0 := ih (by omega) (by omega)
              rw [show n - k + 1 = n + 1 - k by omega] at hnext
              refine ⟨fun h => ?_, fun h => ?_⟩
              · obtain ⟨hlt', hrest⟩ := hnext.mp (by omega)
                exact ⟨by omega, (copyBytes_none m₁ k p).mp hnone, hrest⟩
              · have := hnext.mpr ⟨by omega, h.2.2⟩
                omega

/-! ## The handlers stay inside -/

theorem inside_nil : Inside [] := fun _ h => absurd h List.not_mem_nil

@[simp] theorem inside_cons (r : Range) (l : List Range) : Inside (r :: l) ↔ r.stop ≤ r.object.size ∧ Inside l := by
  exact List.forall_mem_cons

theorem inside_singleton (r : Range) : Inside [r] ↔ r.stop ≤ r.object.size := by
  rw [inside_cons]
  exact and_iff_left inside_nil

/-- A copy of `len` bytes stays within the first `n`. -/
theorem copyinStores_le : (copyinStores segs pages pgdir va len m).1.length ≤ n ↔ len ≤ n ∨ ¬ Reaches segs pages pgdir va (n + 1) m := by
  have hlt : n < (copyinStores segs pages pgdir va len m).1.length ↔ n < len ∧ Reaches segs pages pgdir va (n + 1) m :=
    lt_copyinInto_length le_rfl (Nat.lt_succ_self n)
  rw [← Nat.not_lt, hlt, not_and_or, Nat.not_lt]

/-- A copy that returns is one whose bytes can all be brought in. -/
theorem copyinStores_isSome : (copyinStores segs pages pgdir va len m).2.isSome = true ↔ Reaches segs pages pgdir va len m := by
  constructor
  · intro h
    obtain ⟨m', hm'⟩ := Option.isSome_iff_exists.mp h
    exact ⟨_, copyinInto_some.mp (Prod.ext rfl hm')⟩
  · rintro ⟨⟨bytes, m'⟩, hr⟩
    have hpair := copyinInto_some.mpr hr
    unfold copyinStores
    rw [hpair]
    rfl

/-- It has stored them all. -/
theorem copyinStores_length (h : Reaches segs pages pgdir va len m) : (copyinStores segs pages pgdir va len m).1.length = len := by
  cases len with
  | zero => exact Nat.le_zero.mp (copyinInto_length_le ..)
  | succ len =>
    have hlt : len < (copyinInto segs pages pgdir (len + 1) va (len + 1) m).1.length :=
      (lt_copyinInto_length le_rfl (Nat.lt_succ_self len)).mpr ⟨Nat.lt_succ_self len, h⟩
    exact Nat.le_antisymm (copyinInto_length_le ..) hlt

theorem fetchstr_le {uva : Nat} (hn : n < max) : (fetchstr segs pages pgdir uva max m).1.length ≤ n ↔
    ¬ ∃ bytes, readInstr segs pages pgdir (n + 1) uva (n + 1) m = some bytes ∧ ∀ c ∈ bytes.take n, c ≠ 0 := by
  have hlt : n < (fetchstr segs pages pgdir uva max m).1.length ↔ _ := lt_copyInstr_length le_rfl (Nat.lt_succ_self n)
  rw [← Nat.not_lt, hlt]
  exact not_congr (and_iff_right hn)

theorem fetchstr_length_le {uva : Nat} : (fetchstr segs pages pgdir uva max m).1.length ≤ max := copyInstr_length_le ..

theorem syscallSchedSetaffinity_inside {th : Bool} {cpusetsize addr : Nat} :
    Inside (syscallSchedSetaffinity segs pages pgdir th cpusetsize addr m) ↔
      cpusetsize ≤ 128 ∨ ¬ Reaches segs pages pgdir addr 129 m := by
  unfold syscallSchedSetaffinity
  rw [inside_cons]
  have hfirst : (front .cpuset (copyinStores segs pages pgdir addr cpusetsize m).1.length).stop ≤ (128 : Nat) ↔ _ := copyinStores_le
  refine ⟨fun h => hfirst.mp h.1, fun h => ⟨hfirst.mpr h, ?_⟩⟩
  split
  · rename_i hboth
    rw [inside_singleton]
    have hreach := copyinStores_isSome.mp (Bool.and_eq_true_iff.mp hboth).1
    have hlen := copyinStores_length hreach
    have hle := hfirst.mpr h
    have hsize : cpusetsize ≤ 128 := hlen ▸ hle
    exact (Nat.mod_le _ _).trans hsize
  · exact inside_nil

theorem syscallSchedGetaffinity_inside {th : Bool} {cpusetsize : Nat} :
    Inside (syscallSchedGetaffinity th cpusetsize) ↔ th = false ∨ cpusetsize % 2 ^ 32 ≤ 128 := by
  unfold syscallSchedGetaffinity
  cases th with
  | false => exact ⟨fun _ => .inl rfl, fun _ => inside_nil⟩
  | true =>
    rw [if_pos rfl, inside_singleton]
    exact ⟨fun h => .inr h, fun h => h.resolve_left (fun heq => by cases heq)⟩

theorem syscallBind_inside {addr : Nat} :
    Inside (syscallBind segs pages pgdir addr len m) ↔ len ≤ 16 ∨ ¬ Reaches segs pages pgdir addr 17 m := by
  unfold syscallBind
  rw [inside_singleton]
  exact copyinStores_le

theorem syscallConnect_inside {addr : Nat} :
    Inside (syscallConnect segs pages pgdir addr len m) ↔ len ≤ 16 ∨ ¬ Reaches segs pages pgdir addr 17 m := by
  unfold syscallConnect
  rw [inside_singleton]
  exact copyinStores_le

/-- `sendto` stays inside its buffers exactly where both lengths fit. -/
theorem syscallSendTo_inside {file : Bool} {a1 a2 a4 a5 : Nat} :
    Inside (syscallSendTo segs pages pgdir file a1 a2 a4 a5 m) ↔
      (a5 ≤ 16 ∨ ¬ Reaches segs pages pgdir a4 17 m) ∧
        ∀ sa m₁, copyin segs pages pgdir a4 a5 m = .ok (sa, m₁) → Reaches segs pages pgdir a1 (min a2 PAGE_SIZE) m₁ → file = true →
          a2 % 2 ^ 32 < PAGE_SIZE := by
  unfold syscallSendTo
  rw [inside_cons]
  have hfirst : (front .sa (copyinStores segs pages pgdir a4 a5 m).1.length).stop ≤ (16 : Nat) ↔ _ := copyinStores_le
  refine and_congr hfirst ?_
  have hsa : ∀ sa m₁, copyin segs pages pgdir a4 a5 m = .ok (sa, m₁) ↔ copyinStores segs pages pgdir a4 a5 m = (sa, some m₁) :=
    fun sa m₁ => copyinInto_some.symm
  cases hr : copyinStores segs pages pgdir a4 a5 m with
  | mk sa r =>
    cases r with
    | none =>
      refine ⟨fun _ sa' m₁ hok => ?_, fun _ => inside_nil⟩
      rw [hsa, hr] at hok
      cases hok
    | some m₁ =>
      have hall : (∀ sa' m', copyin segs pages pgdir a4 a5 m = .ok (sa', m') → Reaches segs pages pgdir a1 (min a2 PAGE_SIZE) m' →
          file = true → a2 % 2 ^ 32 < PAGE_SIZE) ↔
          (Reaches segs pages pgdir a1 (min a2 PAGE_SIZE) m₁ → file = true → a2 % 2 ^ 32 < PAGE_SIZE) := by
        refine ⟨fun h => h sa m₁ ((hsa sa m₁).mpr hr), fun h sa' m' hok => ?_⟩
        rw [hsa, hr] at hok
        cases hok
        exact h
      rw [hall]
      rw [inside_cons]
      have hbuf : (front .sendBuf (copyinStores segs pages pgdir a1 (min a2 PAGE_SIZE) m₁).1.length).stop ≤ Object.sendBuf.size :=
        (copyinInto_length_le ..).trans (Nat.min_le_right _ _)
      refine (and_iff_right hbuf).trans ?_
      split
      · rename_i hboth
        obtain ⟨hsome, hfile⟩ := Bool.and_eq_true_iff.mp hboth
        rw [inside_singleton]
        exact ⟨fun h _ _ => h, fun h => h (copyinStores_isSome.mp hsome) hfile⟩
      · rename_i hnot
        refine ⟨fun _ hreach hfile => absurd (Bool.and_eq_true_iff.mpr ⟨copyinStores_isSome.mpr hreach, hfile⟩) hnot, fun _ => inside_nil⟩

/-- `socket_write` stays inside its buffer exactly where the length fits. -/
theorem socket_write_inside {isUser : Bool} {addr : Nat} {n : Int} :
    Inside (socket_write segs pages pgdir isUser addr n m) ↔
      if isUser then asU64 n < 40960 ∨ ¬ Reaches segs pages pgdir addr (min (asU64 n) 40961) m else asU64 n % 2 ^ 32 < 40960 := by
  unfold socket_write
  generalize asU64 n = len
  have hsize : Object.writeBuf.size = 40960 := by decide
  cases isUser with
  | false =>
    rw [if_neg Bool.false_ne_true, if_neg Bool.false_ne_true, inside_cons, inside_singleton]
    show len % 2 ^ 32 ≤ Object.writeBuf.size ∧ len % 2 ^ 32 + 1 ≤ Object.writeBuf.size ↔ _
    rw [hsize]
    omega
  | true =>
    rw [if_pos rfl, if_pos rfl]
    rw [inside_cons]
    have hfirst : (front .writeBuf (copyinStores segs pages pgdir addr len m).1.length).stop ≤ (40960 : Nat) ↔
        len ≤ 40960 ∨ ¬ Reaches segs pages pgdir addr 40961 m := copyinStores_le
    have hrest : Inside (if (copyinStores segs pages pgdir addr len m).2.isSome then [sendTo .writeBuf len] else []) ↔
        (Reaches segs pages pgdir addr len m → len % 2 ^ 32 < 40960) := by
      split
      · rename_i hsome
        rw [inside_singleton]
        show len % 2 ^ 32 + 1 ≤ Object.writeBuf.size ↔ _
        rw [hsize]
        exact ⟨fun h _ => h, fun h => h (copyinStores_isSome.mp hsome)⟩
      · rename_i hnone
        exact ⟨fun _ hreach => absurd (copyinStores_isSome.mpr hreach) hnone, fun _ => inside_nil⟩
    rw [hrest]
    show _ ≤ Object.writeBuf.size ∧ _ ↔ _
    rw [hsize, hfirst]
    rcases Nat.lt_trichotomy len 40960 with hlt | rfl | hgt
    · have hmod : len % 2 ^ 32 < 40960 := Nat.lt_of_le_of_lt (Nat.mod_le _ _) hlt
      exact ⟨fun _ => .inl hlt, fun _ => ⟨.inl hlt.le, fun _ => hmod⟩⟩
    · rw [Nat.min_eq_left (by decide)]
      exact ⟨fun h => .inr fun hreach => absurd (h.2 hreach) (by decide),
        fun h => ⟨.inl le_rfl, fun hreach => absurd hreach (h.resolve_left (Nat.lt_irrefl _))⟩⟩
    · rw [Nat.min_eq_right hgt]
      constructor
      · exact fun h => .inr (h.1.resolve_left (Nat.not_le.mpr hgt))
      · intro h
        have hnot := h.resolve_left (Nat.not_lt.mpr hgt.le)
        refine ⟨.inr hnot, fun hreach => absurd ?_ (Nat.not_le.mpr hgt)⟩
        have hle := hfirst.mpr (.inr hnot)
        rw [← copyinStores_length hreach]
        exact hle

theorem fetchPath_le {uva : Nat} :
    (fetchstr segs pages pgdir uva FAT32_MAX_PATH m).1.length ≤ FAT32_MAX_FILENAME ↔ ¬ Overlong segs pages pgdir uva m :=
  fetchstr_le (by decide)

/-- Neither path `syscallMountPaths` comes to is too long. -/
def PathsFit (segs : List SegmentMap) (pages : Nat → Idx → BitVec 64) (pgdir : Ppn) (metaName : List UInt8 → Bool)
    (imagePathUva mountPathUva : Nat) (m : Mem) : Prop :=
  ¬ Overlong segs pages pgdir imagePathUva m ∧
    ∀ image m₁, (fetchstr segs pages pgdir imagePathUva FAT32_MAX_PATH m).2 = some (some image, m₁) → metaName image = true →
      ¬ Overlong segs pages pgdir mountPathUva m₁

/-- Where the paths of a mount fit. -/
theorem syscallMountPaths_inside {metaName : List UInt8 → Bool} {imagePathUva mountPathUva dataUva : Nat} :
    Inside (syscallMountPaths segs pages pgdir metaName imagePathUva mountPathUva dataUva m) ↔
      PathsFit segs pages pgdir metaName imagePathUva mountPathUva m := by
  unfold syscallMountPaths PathsFit
  rw [inside_cons]
  have himage : (front .imagePath (fetchstr segs pages pgdir imagePathUva FAT32_MAX_PATH m).1.length).stop ≤ Object.imagePath.size ↔
      ¬ Overlong segs pages pgdir imagePathUva m := fetchPath_le
  refine and_congr himage ?_
  split
  · rename_i image m₁ hfetch
    have hall : (∀ image' m', (fetchstr segs pages pgdir imagePathUva FAT32_MAX_PATH m).2 = some (some image', m') →
        metaName image' = true → ¬ Overlong segs pages pgdir mountPathUva m') ↔
        (metaName image = true → ¬ Overlong segs pages pgdir mountPathUva m₁) := by
      refine ⟨fun h => h image m₁ hfetch, fun h image' m' hok => ?_⟩
      rw [hfetch] at hok
      cases hok
      exact h
    rw [hall]
    split
    · rename_i hmeta
      rw [imp_iff_right hmeta, inside_cons]
      have hmount : (front .mountPath (fetchstr segs pages pgdir mountPathUva FAT32_MAX_PATH m₁).1.length).stop ≤ Object.mountPath.size ↔
          ¬ Overlong segs pages pgdir mountPathUva m₁ := fetchPath_le
      refine Iff.trans (and_iff_left ?_) hmount
      split
      · rename_i m₂ _
        split
        · rw [inside_singleton]
          exact fetchstr_length_le
        · exact inside_nil
      · exact inside_nil
    · rename_i hmeta
      exact ⟨fun _ h => absurd h hmeta, fun _ => inside_nil⟩
  · rename_i hnone
    exact ⟨fun _ image m₁ hfetch => absurd hfetch (hnone image m₁), fun _ => inside_nil⟩

/-- And its type. -/
theorem syscallMount_inside {metaName : List UInt8 → Bool} {imagePathUva mountPathUva typeUva dataUva : Nat} :
    Inside (syscallMount segs pages pgdir metaName imagePathUva mountPathUva typeUva dataUva m) ↔
      ∀ type m₁, (fetchstr segs pages pgdir typeUva 10 m).2 = some (some type, m₁) → type.take 4 = [118, 102, 97, 116] →
        PathsFit segs pages pgdir metaName imagePathUva mountPathUva m₁ := by
  unfold syscallMount
  rw [inside_cons]
  have htype : (front .type (fetchstr segs pages pgdir typeUva 10 m).1.length).stop ≤ Object.type.size := fetchstr_length_le
  refine (and_iff_right htype).trans ?_
  split
  · rename_i type m₁ hfetch
    have hall : (∀ type' m', (fetchstr segs pages pgdir typeUva 10 m).2 = some (some type', m') → type'.take 4 = [118, 102, 97, 116] →
        PathsFit segs pages pgdir metaName imagePathUva mountPathUva m') ↔
        (type.take 4 = [118, 102, 97, 116] → PathsFit segs pages pgdir metaName imagePathUva mountPathUva m₁) := by
      refine ⟨fun h => h type m₁ hfetch, fun h type' m' hok => ?_⟩
      rw [hfetch] at hok
      cases hok
      exact h
    rw [hall]
    split
    · rename_i hother
      exact ⟨fun _ hvfat => absurd hvfat hother, fun _ => inside_nil⟩
    · rename_i hvfat
      rw [imp_iff_right (not_not.mp hvfat)]
      exact syscallMountPaths_inside
  · rename_i hnone
    exact ⟨fun _ type m₁ hfetch => absurd hfetch (hnone type m₁), fun _ => inside_nil⟩

end Length

/-! ## All handlers -/

/-- A handler, with the registers it reads and what it finds for them. -/
inductive Handler
  | schedSetaffinity (th : Bool) (cpusetsize addr : Nat)
  | schedGetaffinity (th : Bool) (cpusetsize : Nat)
  | bind (addr len : Nat)
  | connect (addr len : Nat)
  /-- `file` is whether `ofile[a0]` is not NULL; it need not be a socket -/
  | sendTo (file : Bool) (a1 a2 a4 a5 : Nat)
  | socketWrite (isUser : Bool) (addr : Nat) (n : Int)
  | mount (metaName : List UInt8 → Bool) (imagePathUva mountPathUva typeUva dataUva : Nat)

section Handlers

variable (segs : List SegmentMap) (pages : Nat → Idx → BitVec 64) (pgdir : Ppn) (m : Mem)

def Handler.stores : Handler → List Range
  | .schedSetaffinity th cpusetsize addr => syscallSchedSetaffinity segs pages pgdir th cpusetsize addr m
  | .schedGetaffinity th cpusetsize => syscallSchedGetaffinity th cpusetsize
  | .bind addr len => syscallBind segs pages pgdir addr len m
  | .connect addr len => syscallConnect segs pages pgdir addr len m
  | .sendTo file a1 a2 a4 a5 => syscallSendTo segs pages pgdir file a1 a2 a4 a5 m
  | .socketWrite isUser addr n => socket_write segs pages pgdir isUser addr n m
  | .mount metaName imagePathUva mountPathUva typeUva dataUva =>
    syscallMount segs pages pgdir metaName imagePathUva mountPathUva typeUva dataUva m

/-- The lengths fit their objects, or the copy ends before they are reached. -/
def Handler.Fits : Handler → Prop
  | .schedSetaffinity _ cpusetsize addr => cpusetsize ≤ 128 ∨ ¬ Reaches segs pages pgdir addr 129 m
  | .schedGetaffinity th cpusetsize => th = false ∨ cpusetsize % 2 ^ 32 ≤ 128
  | .bind addr len | .connect addr len => len ≤ 16 ∨ ¬ Reaches segs pages pgdir addr 17 m
  | .sendTo file a1 a2 a4 a5 =>
    (a5 ≤ 16 ∨ ¬ Reaches segs pages pgdir a4 17 m) ∧
      ∀ sa m₁, copyin segs pages pgdir a4 a5 m = .ok (sa, m₁) → Reaches segs pages pgdir a1 (min a2 PAGE_SIZE) m₁ → file = true →
        a2 % 2 ^ 32 < PAGE_SIZE
  | .socketWrite isUser addr n =>
    if isUser then asU64 n < 40960 ∨ ¬ Reaches segs pages pgdir addr (min (asU64 n) 40961) m else asU64 n % 2 ^ 32 < 40960
  | .mount metaName imagePathUva mountPathUva typeUva _ =>
    ∀ type m₁, (fetchstr segs pages pgdir typeUva 10 m).2 = some (some type, m₁) → type.take 4 = [118, 102, 97, 116] →
      PathsFit segs pages pgdir metaName imagePathUva mountPathUva m₁

/-- **No handler stores beyond the object it targets** exactly if the lengths it is given fit. -/
theorem stores_inside_iff (h : Handler) : Inside (h.stores segs pages pgdir m) ↔ h.Fits segs pages pgdir m := by
  cases h with
  | schedSetaffinity th cpusetsize addr => exact syscallSchedSetaffinity_inside
  | schedGetaffinity th cpusetsize => exact syscallSchedGetaffinity_inside
  | bind addr len => exact syscallBind_inside
  | connect addr len => exact syscallConnect_inside
  | sendTo file a1 a2 a4 a5 => exact syscallSendTo_inside
  | socketWrite isUser addr n => exact socket_write_inside
  | mount metaName imagePathUva mountPathUva typeUva dataUva => exact syscallMount_inside

end Handlers

/-- `sched_getaffinity` with `cpusetsize` one too large, for a thread there is. -/
theorem getaffinity_overrun :
    ¬ ∀ (segs : List SegmentMap) (pages : Nat → Idx → BitVec 64) (pgdir : Ppn) (m : Mem) (h : Handler),
      Inside (h.stores segs pages pgdir m) := by
  intro hall
  have hinside : Inside (syscallSchedGetaffinity true 129) :=
    hall [] (fun _ _ => 0) 0 ⟨fun _ _ => 0, fun _ => 0, []⟩ (.schedGetaffinity true 129)
  have hle : (129 : Nat) ≤ 128 := (inside_singleton _).mp hinside
  exact absurd hle (by decide)

end Exaros.Trap
