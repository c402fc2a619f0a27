import Exaros.Memory.Forking
import Exaros.Memory.Region
import Exaros.Process.Replace

/-!
# The user stack of a new program

`initUserStack` pushes the arguments, the environment, the random bytes and then the vector that points to them.
Each push rounds the stack pointer down, so the blocks lie apart from each other, and in a region of the process's own
the later ones leave the earlier as they are. What the program finds at its stack pointer is then the vector, and
behind its pointers the strings.
-/

namespace Exaros.Exec

/-! ## What the program reads -/

/-- The `n` bytes at an address as a number, the low byte first. -/
def wordFrom (byte : Nat → Option UInt8) : Nat → Nat → Option Nat
  | 0, _ => some 0
  | n + 1, a => do
    let ch ← byte a
    let x ← wordFrom byte n (a + 1)
    return ch.toNat + 256 * x

/-- The `u64` at an address. -/
def wordAt (byte : Nat → Option UInt8) (a : Nat) : Option Nat := wordFrom byte 8 a

/-- The words from an address on. -/
def WordsAt (byte : Nat → Option UInt8) (a : Nat) (ws : List Nat) : Prop :=
  ∀ i < ws.length, wordAt byte (a + 8 * i) = ws[i]?

/-- The bytes from an address on. -/
def BytesAt (byte : Nat → Option UInt8) (a : Nat) (bs : List UInt8) : Prop :=
  ∀ i < bs.length, byte (a + i) = bs[i]?

/-- A string with its terminator. -/
def StringAt (byte : Nat → Option UInt8) (a : Nat) (str : List UInt8) : Prop := BytesAt byte a (str ++ [0])

/-- What a process has at its addresses. -/
def userByte (env : Env) (space : Space) (m : Mem) : Nat → Option UInt8 :=
  spaceByte (fun _ => space.segmentMap) (fun _ => env.page) m space.pgdir

def AT_PHDR : Nat := 3
def AT_PHENT : Nat := 4
def AT_PHNUM : Nat := 5
def AT_BASE : Nat := 7
def AT_ENTRY : Nat := 9

/-- The vector at the stack pointer. -/
def vector (argc : Nat) (args envs : List Nat) (aux : List (Nat × Nat)) : List Nat :=
  [argc] ++ args ++ [0] ++ envs ++ [0] ++ aux.flatMap fun p => [p.1, p.2]

/-- Where the strings at some addresses lie. -/
def extents (addrs : List Nat) (strs : List (List UInt8)) : List (Nat × Nat) :=
  addrs.zipWith (fun a str => (a, str.length + 1)) strs

/-- The user stack with its pointer at `top`: the arguments at `args`, the environment at `envs`, the random bytes
at `rand` in a block of 32. -/
structure UserStack (byte : Nat → Option UInt8) (top : Nat) (argv envp : List (List UInt8)) (args envs : List Nat)
    (rand : Nat) (aux : List (Nat × Nat)) : Prop where
  aligned : top % 16 = 0
  words : WordsAt byte top (vector argv.length args envs aux)
  strings : List.Forall₂ (StringAt byte) args argv
  environment : List.Forall₂ (StringAt byte) envs envp
  random : BytesAt byte rand k_rand_bytes
  ended : ∃ front, aux = front ++ [(0, 0)] ∧ ∀ p ∈ front, p.1 ≠ 0
  within : ∀ b ∈ extents args argv ++ extents envs envp ++
    [(rand, 32), (top, 8 * (vector argv.length args envs aux).length)],
      USER_STACK_BOTTOM ≤ b.1 ∧ b.1 + b.2 ≤ USER_STACK_TOP
  apart : (extents args argv ++ extents envs envp ++
    [(rand, 32), (top, 8 * (vector argv.length args envs aux).length)]).Pairwise fun b c => c.1 + c.2 ≤ b.1

/-- The indices at which `initUserStack` stores into `ustack`, in the order of the source. -/
def ustackIndices (argc : Nat) : List Nat :=
  (List.range argc).map (· + 1) ++ [0, argc + 1] ++ (List.range envVariable.length).map (argc + 2 + ·) ++
    [argc + 2 + envVariable.length] ++ (List.range 30).map (argc + envVariable.length + 3 + ·)

section Words

variable {byte : Nat → Option UInt8} {a n : Nat} {ws : List Nat}

theorem wordFrom_eq {x : Nat} (h : ∀ i < n, byte (a + i) = some (UInt8.ofNat (x >>> (8 * i)))) :
    wordFrom byte n a = some (x % 256 ^ n) := by
  induction n generalizing a x with
  | zero => simp [wordFrom, Nat.mod_one]
  | succ n ih =>
    have hrest : wordFrom byte n (a + 1) = some (x / 256 % 256 ^ n) := by
      apply ih
      intro i hi
      have hdiv : x >>> (8 * 1) = x / 256 := Nat.shiftRight_eq_div_pow x 8
      rw [Nat.add_assoc, Nat.add_comm 1 i, h (i + 1) (by omega), Nat.mul_add, Nat.add_comm (8 * i), Nat.shiftRight_add,
        hdiv]
    have hfirst := h 0 (by omega)
    rw [Nat.add_zero, Nat.mul_zero, Nat.shiftRight_zero] at hfirst
    unfold wordFrom
    rw [hfirst, hrest, Nat.pow_succ, Nat.mul_comm (256 ^ n), Nat.mod_mul]
    simp

theorem getElem?_wordBytes {k i : Nat} (hk : k < ws.length) (hi : i < 8) :
    (ws.flatMap wordBytes)[8 * k + i]? = some (UInt8.ofNat (ws[k] >>> (8 * i))) := by
  induction ws generalizing k with
  | nil => cases hk
  | cons w ws ih =>
    have hlen : (wordBytes w).length = 8 := by simp [wordBytes]
    rw [List.flatMap_cons]
    cases k with
    | zero =>
      rw [List.getElem?_append_left (by omega)]
      simp [wordBytes, hi]
    | succ k =>
      rw [List.getElem?_append_right (by omega), hlen, show 8 * (k + 1) + i - 8 = 8 * k + i by omega]
      exact ih (Nat.lt_of_succ_lt_succ hk)

/-- The bytes of words read back as the words. -/
theorem WordsAt.of_bytes (h : BytesAt byte a (ws.flatMap wordBytes)) (hws : ∀ w ∈ ws, w < 2 ^ 64) : WordsAt byte a ws := by
  intro k hk
  have hword : wordAt byte (a + 8 * k) = some (ws[k] % 256 ^ 8) := by
    apply wordFrom_eq
    intro i hi
    rw [Nat.add_assoc, h (8 * k + i) (by rw [length_wordBytes]; omega)]
    exact getElem?_wordBytes hk hi
  have hpow : 256 ^ 8 = 2 ^ 64 := by decide
  rw [hword, List.getElem?_eq_getElem hk, hpow, Nat.mod_eq_of_lt (hws _ (List.getElem_mem hk))]

end Words

/-! ## Blocks on the stack -/

/-- A block pushed: where it lies, the room kept for it and its bytes. -/
structure Block where
  addr : Nat
  room : Nat
  bytes : List UInt8

/-- How far blocks can take the stack pointer down. -/
def roomOf (blocks : List Block) : Nat := (blocks.map fun b => b.room + 15).sum

/-- The stack with some blocks on it, the last one lowest. -/
structure Built (env : Env) (dirs : Finset Ppn) (space : Space) (blocks : List Block) (s : Stack) : Prop where
  region : Region env.img dirs space.segmentMap s.mem space.pgdir USER_STACK_BOTTOM USER_STACK_TOP
  bytes : ∀ b ∈ blocks, BytesAt (userByte env space s.mem) b.addr b.bytes
  room : ∀ b ∈ blocks, b.bytes.length ≤ b.room ∧ s.sp ≤ b.addr ∧ b.addr + b.room ≤ USER_STACK_TOP
  apart : blocks.Pairwise fun b c => c.addr + c.room ≤ b.addr
  low : USER_STACK_TOP ≤ s.sp + roomOf blocks
  high : s.sp ≤ USER_STACK_TOP

def stringBlock (a : Nat) (str : List UInt8) : Block := ⟨a, str.length + 1, str ++ [0]⟩

section Push

variable {env : Env} {dirs : Finset Ppn} {space : Space} {blocks : List Block} {s s' : Stack} {room : Nat}
  {bs : List UInt8} {strs : List (List UInt8)}

theorem roomOf_append (bs cs : List Block) : roomOf (bs ++ cs) = roomOf bs + roomOf cs := by
  unfold roomOf
  rw [List.map_append, List.sum_append]

theorem stack_size : USER_STACK_TOP = USER_STACK_BOTTOM + 2 ^ 32 := by decide

theorem stack_top_le : USER_STACK_TOP ≤ VA_MAX := by decide

/-- Where a push puts its block. -/
theorem pushSp_spec (sp room : Nat) (hlow : room + 15 ≤ sp) (hhigh : sp ≤ USER_STACK_TOP) :
    pushSp sp room % 16 = 0 ∧ pushSp sp room + room ≤ sp ∧ sp ≤ pushSp sp room + (room + 15) := by
  have htop : USER_STACK_TOP < 2 ^ 63 := by decide
  have hsp : pushSp sp room = sp - room - (sp - room) % 16 := by
    unfold pushSp u64
    dsimp only
    omega
  rw [hsp]
  omega

theorem push_cases (hok : push env space room bs s = .ok s') :
    s'.sp = pushSp s.sp room ∧ s'.addrs = s.addrs ++ [s'.sp] ∧
      copyout space.segmentMap env.page space.pgdir s'.sp bs s.mem = .ok s'.mem := by
  obtain ⟨m', hcopy, hx⟩ := Loop.bind_ok hok
  cases hx
  exact ⟨rfl, rfl, hcopy⟩

/-- A push leaves what is on the stack and adds its block. -/
theorem Built.push (B : Built env dirs space blocks s) (hd : space.pgdir ∈ dirs) (hlen : bs.length ≤ room)
    (hroom : roomOf blocks + (room + 15) ≤ 2 ^ 32) (hok : push env space room bs s = .ok s') :
    Built env dirs space (blocks ++ [⟨s'.sp, room, bs⟩]) s' ∧ s'.addrs = s.addrs ++ [s'.sp] ∧ s'.sp % 16 = 0 ∧
      s.mem.freePageList.length ≤ s'.mem.freePageList.length + 3 * pagesMet s'.sp bs.length := by
  obtain ⟨hsp, haddrs, hcopy⟩ := push_cases hok
  have hsize := stack_size
  have hmax := stack_top_le
  have hlow := B.low
  have hhigh := B.high
  obtain ⟨hmod, hbelow, habove⟩ := pushSp_spec s.sp room (by omega) hhigh
  rw [← hsp] at hmod hbelow habove
  obtain ⟨R, hset, hoff, hfree⟩ := B.region.copyoutLoop (fun _ => space.segmentMap) (fun _ => env.page) hd hmax
    (by omega) (by omega) hcopy
  refine ⟨⟨R, fun b hb => ?_, fun b hb => ?_, ?_, ?_, by omega⟩, haddrs, hmod, hfree⟩
  · rcases List.mem_append.mp hb with hb | hb
    · intro i hi
      have hroom := B.room b hb
      exact (hoff _ hd (b.addr + i) (by omega) fun hc => by omega).trans (B.bytes b hb i hi)
    · obtain rfl := List.mem_singleton.mp hb
      exact hset
  · rcases List.mem_append.mp hb with hb | hb
    · have hroom := B.room b hb
      exact ⟨hroom.1, by omega, hroom.2.2⟩
    · obtain rfl := List.mem_singleton.mp hb
      exact ⟨hlen, Nat.le_refl _, Nat.le_trans hbelow hhigh⟩
  · refine List.pairwise_append.mpr ⟨B.apart, List.pairwise_singleton .., fun b hb c hc => ?_⟩
    obtain rfl := List.mem_singleton.mp hc
    exact Nat.le_trans hbelow (B.room b hb).2.1
  · have hone : roomOf [⟨s'.sp, room, bs⟩] = room + 15 := rfl
    rw [roomOf_append, hone]
    omega

theorem pagesMet_le (va : Nat) {len : Nat} (hlen : len ≤ PAGE_SIZE) : pagesMet va len ≤ 2 := by
  unfold pagesMet PAGE_SIZE at *
  split <;> omega

/-- With memory for two pages and their tables, a push of at most a page returns. -/
theorem Built.exists_push (B : Built env dirs space blocks s) (hd : space.pgdir ∈ dirs) (hlen : bs.length ≤ room)
    (hpage : bs.length ≤ PAGE_SIZE) (hroom : roomOf blocks + (room + 15) ≤ 2 ^ 32) (hmem : 6 ≤ s.mem.freePageList.length) :
    ∃ s', Exec.push env space room bs s = .ok s' ∧ s.mem.freePageList.length ≤ s'.mem.freePageList.length + 6 := by
  have hsize := stack_size
  have hmax := stack_top_le
  have hlow := B.low
  have hhigh := B.high
  obtain ⟨-, hbelow, habove⟩ := pushSp_spec s.sp room (by omega) hhigh
  have hmet := pagesMet_le (pushSp s.sp room) hpage
  have hrange : pushSp s.sp room + bs.length ≤ VA_MAX := by omega
  obtain ⟨m', hcopy, -⟩ := B.region.inv.copyoutLoop (fun _ => space.segmentMap) (fun _ => env.page) hd hrange
    (fun a hlo hhi => B.region.accessible a (by omega) (by omega)) (.inr (by omega)) (Nat.le_refl _)
  have hrun : Exec.push env space room bs s =
      .ok { sp := pushSp s.sp room, mem := m', addrs := s.addrs ++ [pushSp s.sp room] } := by
    unfold Exec.push
    dsimp only
    have hcopy' : copyout space.segmentMap env.page space.pgdir (pushSp s.sp room) bs s.mem = .ok m' := hcopy
    rw [hcopy', Loop.ok_bind]
    rfl
  obtain ⟨-, -, -, hfree⟩ := B.push hd hlen hroom hrun
  dsimp only at hfree
  exact ⟨_, hrun, by dsimp only; omega⟩

/-- A list of strings goes on the stack. -/
theorem Built.pushStrings (B : Built env dirs space blocks s) (hd : space.pgdir ∈ dirs)
    (hroom : roomOf blocks + stringRoom strs ≤ 2 ^ 32) (hok : strs.foldlM (pushString env space) s = .ok s') :
    ∃ new, new.length = strs.length ∧ s'.addrs = s.addrs ++ new ∧
      Built env dirs space (blocks ++ new.zipWith stringBlock strs) s' := by
  induction strs generalizing s blocks with
  | nil =>
    cases hok
    exact ⟨[], rfl, (List.append_nil _).symm, (List.append_nil blocks).symm ▸ B⟩
  | cons str strs ih =>
    rw [List.foldlM_cons] at hok
    obtain ⟨s₁, h₁, hok⟩ := Loop.bind_ok hok
    have hstr : stringRoom (str :: strs) = str.length + 16 + stringRoom strs := by
      unfold stringRoom
      rw [List.map_cons, List.sum_cons]
    have hone : roomOf [stringBlock s₁.sp str] = str.length + 16 := rfl
    have hlen : (str ++ [0]).length ≤ str.length + 1 := by simp
    obtain ⟨B₁, haddr, -, -⟩ := B.push hd hlen (by omega) h₁
    obtain ⟨new, hlen, haddrs, B'⟩ := ih B₁ (by
      change roomOf (blocks ++ [stringBlock s₁.sp str]) + stringRoom strs ≤ 2 ^ 32
      rw [roomOf_append, hone]
      omega) hok
    refine ⟨s₁.sp :: new, by rw [List.length_cons, List.length_cons, hlen], ?_, ?_⟩
    · rw [haddrs, haddr, List.append_assoc]
      rfl
    · rw [List.append_assoc] at B'
      exact B'

/-- The strings find room, and pages. -/
theorem Built.exists_pushStrings (B : Built env dirs space blocks s) (hd : space.pgdir ∈ dirs)
    (hstrs : ∀ str ∈ strs, str.length ≤ PAGE_SIZE - 1) (hroom : roomOf blocks + stringRoom strs ≤ 2 ^ 32)
    (hmem : 6 * strs.length ≤ s.mem.freePageList.length) :
    ∃ s', strs.foldlM (pushString env space) s = .ok s' ∧
      s.mem.freePageList.length ≤ s'.mem.freePageList.length + 6 * strs.length := by
  induction strs generalizing s blocks with
  | nil => exact ⟨s, rfl, Nat.le_refl _⟩
  | cons str strs ih =>
    have hstr : stringRoom (str :: strs) = str.length + 16 + stringRoom strs := by
      unfold stringRoom
      rw [List.map_cons, List.sum_cons]
    have hlen : (str ++ [0]).length ≤ str.length + 1 := by simp
    have hpage : str.length ≤ PAGE_SIZE - 1 := hstrs str List.mem_cons_self
    have hsize : PAGE_SIZE = 4096 := rfl
    rw [List.length_cons] at hmem
    obtain ⟨s₁, h₁, hfree⟩ := B.exists_push hd hlen (by omega) (by omega) (by omega)
    obtain ⟨B₁, -⟩ := B.push hd hlen (by omega) h₁
    have hone : roomOf [stringBlock s₁.sp str] = str.length + 16 := rfl
    obtain ⟨s', h', hfree'⟩ := ih B₁ (fun s hs => hstrs s (List.mem_cons_of_mem _ hs)) (by
      change roomOf (blocks ++ [stringBlock s₁.sp str]) + stringRoom strs ≤ 2 ^ 32
      rw [roomOf_append, hone]
      omega) (by omega)
    refine ⟨s', ?_, by rw [List.length_cons]; omega⟩
    rw [List.foldlM_cons]
    have h₁' : pushString env space s str = .ok s₁ := h₁
    rw [h₁', Loop.ok_bind]
    exact h'

end Push

/-! ## The whole stack -/

section Whole

variable {env : Env} {dirs : Finset Ppn} {space : Space} {argv : List (List UInt8)} {phdrAddr addr offset : Nat}
  {elf : Ehdr} {m m' : Mem} {top : Nat} {strs : List (List UInt8)} {addrs : List Nat}

/-- The pairs of `auxv`. -/
def auxPairs (phdrAddr phnum interpLoadAddr entry u_rand_bytes execfn : Nat) : List (Nat × Nat) :=
  [(16, 0), (6, PAGE_SIZE), (AT_PHDR, phdrAddr), (AT_PHENT, PHDR_SIZE), (AT_PHNUM, phnum), (AT_BASE, interpLoadAddr),
   (AT_ENTRY, entry), (11, 0), (12, 0), (13, 0), (14, 0), (23, 0), (25, u_rand_bytes), (31, execfn), (0, 0)]

/-- A null pair ends the auxiliary vector, and only there. -/
theorem auxPairs_ended (phdrAddr phnum base entry rand execfn : Nat) :
    ∃ front, auxPairs phdrAddr phnum base entry rand execfn = front ++ [(0, 0)] ∧ ∀ p ∈ front, p.1 ≠ 0 := by
  refine ⟨(auxPairs phdrAddr phnum base entry rand execfn).dropLast, rfl, ?_⟩
  unfold auxPairs AT_PHDR AT_PHENT AT_PHNUM AT_BASE AT_ENTRY
  simp

/-- `initUserStack` that returns, push by push. -/
theorem initUserStack_cases (hok : initUserStack env space argv phdrAddr elf addr offset m = .ok (top, m')) :
    ∃ args envs rand s ws,
      argv.foldlM (pushString env space) ⟨USER_STACK_TOP, m, []⟩ = .ok args ∧
      envVariable.foldlM (pushString env space) { args with addrs := [] } = .ok envs ∧
      push env space 32 k_rand_bytes envs = .ok rand ∧
      ws = vector argv.length args.addrs envs.addrs (auxPairs phdrAddr elf.phnum addr (u64 (elf.entry + offset)) rand.sp
        (args.addrs.headD 0)) ∧
      push env space (ws.flatMap wordBytes).length (ws.flatMap wordBytes) rand = .ok s ∧ top = s.sp ∧ m' = s.mem := by
  unfold initUserStack at hok
  split at hok
  · cases hok
  · obtain ⟨args, hargs, hok⟩ := Loop.bind_ok hok
    obtain ⟨envs, henvs, hok⟩ := Loop.bind_ok hok
    obtain ⟨rand, hrand, hok⟩ := Loop.bind_ok hok
    obtain ⟨s, hs, hx⟩ := Loop.bind_ok hok
    cases hx
    exact ⟨args, envs, rand, s, _, Loop.mapError_ok hargs, Loop.mapError_ok henvs, Loop.mapError_ok hrand, rfl,
      Loop.mapError_ok hs, rfl, rfl⟩

/-- Nothing is on the stack yet. -/
theorem Built.empty (R : Region env.img dirs space.segmentMap m space.pgdir USER_STACK_BOTTOM USER_STACK_TOP) :
    Built env dirs space [] ⟨USER_STACK_TOP, m, []⟩ :=
  ⟨R, fun _ hb => (by cases hb), fun _ hb => (by cases hb), List.Pairwise.nil, Nat.le_add_right .., Nat.le_refl _⟩

theorem Built.forget {blocks : List Block} {s : Stack} (B : Built env dirs space blocks s) :
    Built env dirs space blocks { s with addrs := [] } :=
  ⟨B.region, B.bytes, B.room, B.apart, B.low, B.high⟩

theorem stringRoom_cons (str : List UInt8) (strs : List (List UInt8)) :
    stringRoom (str :: strs) = str.length + 16 + stringRoom strs := by
  unfold stringRoom
  rw [List.map_cons, List.sum_cons]

theorem roomOf_strings (hlen : addrs.length = strs.length) :
    roomOf (addrs.zipWith stringBlock strs) = stringRoom strs := by
  induction strs generalizing addrs with
  | nil => rw [List.zipWith_nil_right]; rfl
  | cons str strs ih =>
    cases addrs with
    | nil => cases hlen
    | cons a addrs =>
      have hone : roomOf [stringBlock a str] = str.length + 16 := rfl
      rw [stringRoom_cons, ← ih (Nat.succ.inj hlen), ← hone, ← roomOf_append]
      rfl

theorem stringRoom_le (h : ∀ str ∈ strs, str.length ≤ PAGE_SIZE - 1) :
    stringRoom strs ≤ strs.length * (PAGE_SIZE + 15) := by
  induction strs with
  | nil => exact Nat.zero_le _
  | cons str strs ih =>
    have hpage : str.length ≤ PAGE_SIZE - 1 := h str List.mem_cons_self
    have hrest := ih fun s hs => h s (List.mem_cons_of_mem _ hs)
    have hsize : 0 < PAGE_SIZE := by decide
    rw [stringRoom_cons, List.length_cons, Nat.succ_mul]
    omega

/-- The strings of some blocks are at their addresses. -/
theorem strings_of_blocks {byte : Nat → Option UInt8}
    (hlen : addrs.length = strs.length) (h : ∀ b ∈ addrs.zipWith stringBlock strs, BytesAt byte b.addr b.bytes) :
    List.Forall₂ (StringAt byte) addrs strs := by
  induction strs generalizing addrs with
  | nil =>
    obtain rfl := List.eq_nil_of_length_eq_zero hlen
    exact .nil
  | cons str strs ih =>
    cases addrs with
    | nil => cases hlen
    | cons a addrs =>
      refine .cons (h (stringBlock a str) List.mem_cons_self) (ih (Nat.succ.inj hlen) fun b hb => ?_)
      exact h b (List.mem_cons_of_mem _ hb)

theorem extents_eq (addrs : List Nat) (strs : List (List UInt8)) :
    extents addrs strs = (addrs.zipWith stringBlock strs).map fun b => (b.addr, b.room) := by
  rw [List.map_zipWith]
  rfl

theorem length_vector (argc : Nat) (args envs : List Nat) (aux : List (Nat × Nat)) :
    (vector argc args envs aux).length = args.length + envs.length + 2 * aux.length + 3 := by
  have hpairs : (aux.flatMap fun p => [p.1, p.2]).length = 2 * aux.length := by
    induction aux with
    | nil => rfl
    | cons p aux ih =>
      rw [List.flatMap_cons, List.length_append, ih, List.length_cons]
      simp only [List.length_cons, List.length_nil]
      omega
  unfold vector
  simp only [List.length_append, List.length_cons, List.length_nil, hpairs]
  omega

/-- The strings pushed lie below the top of the stack. -/
theorem Built.addr_le {blocks blocks' : List Block} {s : Stack}
    (B : Built env dirs space (blocks ++ addrs.zipWith stringBlock strs ++ blocks') s) (hlen : addrs.length = strs.length) :
    ∀ a ∈ addrs, a ≤ USER_STACK_TOP := by
  intro a ha
  obtain ⟨i, hi, rfl⟩ := List.mem_iff_getElem.mp ha
  have hmem : stringBlock addrs[i] strs[i] ∈ addrs.zipWith stringBlock strs :=
    List.mem_iff_getElem.mpr ⟨i, by rw [List.length_zipWith]; omega, List.getElem_zipWith ..⟩
  have hroom := (B.room _ (List.mem_append_left _ (List.mem_append_right _ hmem))).2.2
  exact Nat.le_trans (Nat.le_add_right ..) hroom

theorem vector_lt {argc phnum base entry rand execfn : Nat} {args envs : List Nat} (hargc : argc < 2 ^ 64)
    (hargs : ∀ a ∈ args, a < 2 ^ 64) (henvs : ∀ a ∈ envs, a < 2 ^ 64) (hphdr : phdrAddr < 2 ^ 64) (hphnum : phnum < 2 ^ 64)
    (hbase : base < 2 ^ 64) (hentry : entry < 2 ^ 64) (hrand : rand < 2 ^ 64) (hexecfn : execfn < 2 ^ 64) :
    ∀ w ∈ vector argc args envs (auxPairs phdrAddr phnum base entry rand execfn), w < 2 ^ 64 := by
  intro w hw
  have hsize : PAGE_SIZE < 2 ^ 64 := by decide
  have hphent : PHDR_SIZE < 2 ^ 64 := by decide
  have haux : ∀ w ∈ (auxPairs phdrAddr phnum base entry rand execfn).flatMap fun p => [p.1, p.2], w < 2 ^ 64 := by
    unfold auxPairs AT_PHDR AT_PHENT AT_PHNUM AT_BASE AT_ENTRY
    simp only [List.flatMap_cons, List.flatMap_nil, List.cons_append, List.nil_append, List.append_nil, List.forall_mem_cons]
    refine ⟨?_, ?_, ?_, hsize, ?_, hphdr, ?_, hphent, ?_, hphnum, ?_, hbase, ?_, hentry, ?_, ?_, ?_, ?_, ?_, ?_, ?_, ?_, ?_,
      ?_, ?_, hrand, ?_, hexecfn, ?_, ?_, fun _ h => (by cases h)⟩ <;> decide
  unfold vector at hw
  simp only [List.mem_append, List.mem_singleton] at hw
  rcases hw with ((((rfl | hw) | rfl) | hw) | rfl) | hw
  · exact hargc
  · exact hargs w hw
  · decide
  · exact henvs w hw
  · decide
  · exact haux w hw

/-- The room the strings take leaves the stack its bottom. -/
theorem stringRoom_fits (hargc : argv.length ≤ MAX_ARG) (hargv : ∀ str ∈ argv, str.length ≤ PAGE_SIZE - 1) :
    stringRoom argv + stringRoom envVariable + 1024 ≤ 2 ^ 32 := by
  have hroom := stringRoom_le hargv
  have henv : stringRoom envVariable ≤ 256 := by decide
  have hmul : argv.length * (PAGE_SIZE + 15) ≤ MAX_ARG * (PAGE_SIZE + 15) := Nat.mul_le_mul_right _ hargc
  have hbound : MAX_ARG * (PAGE_SIZE + 15) ≤ 2 ^ 18 := by decide
  omega

/-- What a program finds when `initUserStack` has returned. -/
theorem userStack_of_ok (R : Region env.img dirs space.segmentMap m space.pgdir USER_STACK_BOTTOM USER_STACK_TOP)
    (hd : space.pgdir ∈ dirs) (hargc : argv.length ≤ MAX_ARG) (hargv : ∀ str ∈ argv, str.length ≤ PAGE_SIZE - 1)
    (hphdr : phdrAddr < 2 ^ 64) (hphnum : elf.phnum < 2 ^ 16) (haddr : addr < 2 ^ 64)
    (hok : initUserStack env space argv phdrAddr elf addr offset m = .ok (top, m')) :
    ∃ args envs rand, UserStack (userByte env space m') top argv envVariable args envs rand
      (auxPairs phdrAddr elf.phnum addr (u64 (elf.entry + offset)) rand (args.headD 0)) := by
  obtain ⟨args, envs, rand, s, ws, hargs, henvs, hrand, hws, hs, rfl, rfl⟩ := initUserStack_cases hok
  have hfits := stringRoom_fits hargc hargv
  have hmax : MAX_ARG = 32 := rfl
  obtain ⟨A, hA, hargsA, B₁⟩ := (Built.empty R).pushStrings hd (by
    have hnil : roomOf [] = 0 := rfl
    omega) hargs
  rw [List.nil_append] at B₁ hargsA
  have hroom₁ := roomOf_strings hA
  obtain ⟨E, hE, henvsE, B₂⟩ := B₁.forget.pushStrings hd (by omega) henvs
  have hroom₂ := roomOf_strings hE
  rw [List.nil_append] at henvsE
  obtain ⟨B₃, -, -, -⟩ := B₂.push hd (by decide) (by rw [roomOf_append]; omega) hrand
  have hE3 : envVariable.length = 3 := rfl
  have hwords : (ws.flatMap wordBytes).length = 8 * ws.length := length_wordBytes ws
  have hlen : ws.length = argv.length + 36 := by
    have haux : (auxPairs phdrAddr elf.phnum addr (u64 (elf.entry + offset)) rand.sp (args.addrs.headD 0)).length = 15 :=
      rfl
    rw [hws, length_vector, haux, hargsA, henvsE]
    omega
  have hroom₃ : roomOf [⟨rand.sp, 32, k_rand_bytes⟩] = 47 := rfl
  obtain ⟨B₄, -, hmod, -⟩ := B₃.push hd (Nat.le_refl _) (by
    rw [roomOf_append, roomOf_append]
    omega) hs
  have htop : USER_STACK_TOP < 2 ^ 64 := by decide
  have hbelow : ∀ a ∈ A, a ≤ USER_STACK_TOP := by
    have B : Built env dirs space ([] ++ A.zipWith stringBlock argv ++ []) args := by
      rw [List.nil_append, List.append_nil]
      exact B₁
    exact B.addr_le hA
  have hbelowE : ∀ a ∈ E, a ≤ USER_STACK_TOP := by
    have B : Built env dirs space (A.zipWith stringBlock argv ++ E.zipWith stringBlock envVariable ++ []) envs := by
      rw [List.append_nil]
      exact B₂
    exact B.addr_le hE
  have hhead : args.addrs.headD 0 < 2 ^ 64 := by
    rw [hargsA]
    cases A with
    | nil => decide
    | cons a A => exact Nat.lt_of_le_of_lt (hbelow a List.mem_cons_self) htop
  have hrandle := B₃.high
  have hlt : ∀ w ∈ ws, w < 2 ^ 64 := by
    rw [hws]
    refine vector_lt (by omega) (fun a ha => ?_) (fun a ha => ?_) hphdr (by omega) haddr
      (Nat.mod_lt _ (by decide)) (by omega) hhead
    · exact Nat.lt_of_le_of_lt (hbelow a (hargsA ▸ ha)) htop
    · exact Nat.lt_of_le_of_lt (hbelowE a (henvsE ▸ ha)) htop
  -- the blocks, as the places they take
  have hextents : extents A argv ++ extents E envVariable ++ [(rand.sp, 32), (s.sp, 8 * ws.length)] =
      (A.zipWith stringBlock argv ++ E.zipWith stringBlock envVariable ++ [Block.mk rand.sp 32 k_rand_bytes] ++
        [Block.mk s.sp (ws.flatMap wordBytes).length (ws.flatMap wordBytes)]).map fun b => (b.addr, b.room) := by
    rw [extents_eq, extents_eq, List.map_append, List.map_append, List.map_append, List.append_assoc, List.append_assoc,
      List.append_assoc, hwords]
    rfl
  have hvec : vector argv.length A E (auxPairs phdrAddr elf.phnum addr (u64 (elf.entry + offset)) rand.sp (A.headD 0)) =
      ws := by
    rw [hws, hargsA, henvsE]
  refine ⟨A, E, rand.sp, ⟨hmod, ?_, ?_, ?_, ?_, auxPairs_ended .., ?_, ?_⟩⟩
  · rw [hvec]
    exact WordsAt.of_bytes (B₄.bytes _ (List.mem_append_right _ List.mem_cons_self)) hlt
  · refine strings_of_blocks hA fun b hb => B₄.bytes b ?_
    exact List.mem_append_left _ (List.mem_append_left _ (List.mem_append_left _ hb))
  · refine strings_of_blocks hE fun b hb => B₄.bytes b ?_
    exact List.mem_append_left _ (List.mem_append_left _ (List.mem_append_right _ hb))
  · exact B₄.bytes _ (List.mem_append_left _ (List.mem_append_right _ List.mem_cons_self))
  · rw [hvec, hextents]
    intro b hb
    obtain ⟨c, hc, rfl⟩ := List.mem_map.mp hb
    have hroom := B₄.room c hc
    have hlow := B₄.low
    have hsize := stack_size
    rw [roomOf_append, roomOf_append, roomOf_append, hroom₁, hroom₂, hroom₃] at hlow
    have hroom₄ : roomOf [⟨s.sp, (ws.flatMap wordBytes).length, ws.flatMap wordBytes⟩] =
      (ws.flatMap wordBytes).length + 15 := rfl
    omega
  · rw [hvec, hextents, List.pairwise_map]
    exact B₄.apart

/-- With memory for two pages and their tables a push, `initUserStack` returns. -/
theorem exists_initUserStack (R : Region env.img dirs space.segmentMap m space.pgdir USER_STACK_BOTTOM USER_STACK_TOP)
    (hd : space.pgdir ∈ dirs) (hargc : argv.length ≤ MAX_ARG) (hargv : ∀ str ∈ argv, str.length ≤ PAGE_SIZE - 1)
    (hmem : 6 * (argv.length + 5) ≤ m.freePageList.length) :
    ∃ top m', initUserStack env space argv phdrAddr elf addr offset m = .ok (top, m') := by
  have hfits := stringRoom_fits hargc hargv
  have hmax : MAX_ARG = 32 := rfl
  have hnil : roomOf [] = 0 := rfl
  have hE3 : envVariable.length = 3 := rfl
  have hroom : roomOf [] + stringRoom argv ≤ 2 ^ 32 := by omega
  obtain ⟨args, hargs, hfree₁⟩ := (Built.empty R).exists_pushStrings hd hargv hroom (by dsimp only; omega)
  obtain ⟨A, hA, hargsA, B₁⟩ := (Built.empty R).pushStrings hd hroom hargs
  rw [List.nil_append] at B₁ hargsA
  have hroom₁ := roomOf_strings hA
  have henv : ∀ str ∈ envVariable, str.length ≤ PAGE_SIZE - 1 := by decide
  obtain ⟨envs, henvs, hfree₂⟩ := B₁.forget.exists_pushStrings hd henv (by omega) (by dsimp only at hfree₁ ⊢; omega)
  obtain ⟨E, hE, henvsE, B₂⟩ := B₁.forget.pushStrings hd (by omega) henvs
  have hroom₂ := roomOf_strings hE
  rw [List.nil_append] at henvsE
  dsimp only at hfree₁ hfree₂
  have hrand : k_rand_bytes.length ≤ 32 := by decide
  obtain ⟨rand, hpush, hfree₃⟩ := B₂.exists_push hd hrand (by decide) (by rw [roomOf_append]; omega) (by omega)
  obtain ⟨B₃, -⟩ := B₂.push hd hrand (by rw [roomOf_append]; omega) hpush
  obtain ⟨ws, hws⟩ : ∃ ws, ws = vector argv.length args.addrs envs.addrs
    (auxPairs phdrAddr elf.phnum addr (u64 (elf.entry + offset)) rand.sp (args.addrs.headD 0)) := ⟨_, rfl⟩
  have hlen : (ws.flatMap wordBytes).length = 8 * (argv.length + 36) := by
    have haux : (auxPairs phdrAddr elf.phnum addr (u64 (elf.entry + offset)) rand.sp (args.addrs.headD 0)).length = 15 :=
      rfl
    rw [length_wordBytes, hws, length_vector, haux, hargsA, henvsE]
    omega
  have hsize : PAGE_SIZE = 4096 := rfl
  have hroom₃ : roomOf [Block.mk rand.sp 32 k_rand_bytes] = 47 := rfl
  obtain ⟨s, hs, -⟩ := B₃.exists_push hd (Nat.le_refl (ws.flatMap wordBytes).length) (by omega) (by
    rw [roomOf_append, roomOf_append]
    omega) (by omega)
  refine ⟨s.sp, s.mem, initUserStack_eq ?_ hargs henvs hpush (congrArg (List.flatMap wordBytes) hws) hs⟩
  unfold MAX_ARG AT_VECTOR_SIZE
  omega

/-- The index into `ustack` stays within its slots. -/
theorem ustackIndices_lt {argc : Nat} (hargc : argc ≤ MAX_ARG) : ∀ i ∈ ustackIndices argc, i < MAX_ARG + AT_VECTOR_SIZE := by
  intro i hi
  have henv : envVariable.length = 3 := rfl
  unfold ustackIndices at hi
  unfold MAX_ARG AT_VECTOR_SIZE at *
  rw [henv] at hi
  simp only [List.mem_append, List.mem_map, List.mem_range, List.mem_cons, List.not_mem_nil, or_false] at hi
  omega

/-- The pushes fail in the memory only. -/
theorem outcome_mem {α : Type} (x : Except Panic α) :
    Loop.Outcome (fun e => e ≠ Stop.overrun) (fun _ => True) (x.mapError Stop.mem) := by
  cases x with
  | error e => exact .error (fun h => by cases h)
  | ok a => exact .ok trivial

theorem initUserStack_slots (hargc : argv.length ≤ MAX_ARG) :
    initUserStack env space argv phdrAddr elf addr offset m ≠ .error .overrun := by
  have hslots : ¬ MAX_ARG + AT_VECTOR_SIZE < argv.length + 36 := by
    unfold MAX_ARG AT_VECTOR_SIZE at *
    omega
  have hall : Loop.Outcome (fun e => e ≠ Stop.overrun) (fun _ => True)
      (initUserStack env space argv phdrAddr elf addr offset m) := by
    unfold initUserStack
    rw [if_neg hslots]
    refine (outcome_mem _).bind fun args _ => (outcome_mem _).bind fun envs _ => ?_
    exact (outcome_mem _).bind fun rand _ => (outcome_mem _).bind fun top _ => .ok trivial
  exact fun hover => hall.of_error hover rfl

/-- The stack `exec` makes is a region of the new address space. -/
theorem region_replaceSpace {st st' : State} {old : Ppn} (segs : List SegmentMap) (h : Ready env.img dirs st)
    (hok : replaceSpace env st = .ok (old, st')) :
    Region env.img (insert st'.space.pgdir dirs) segs st'.mem st'.space.pgdir USER_STACK_BOTTOM USER_STACK_TOP := by
  unfold replaceSpace execAllocPgdir at hok
  cases ha : allocPgdir st.mem with
  | none =>
    rw [ha] at hok
    cases hok
  | some x =>
    obtain ⟨p, m₀⟩ := x
    rw [ha, Loop.ok_bind] at hok
    obtain ⟨mem, hinit, hx⟩ := Loop.bind_ok hok
    cases hx
    have hinit : initUserMemory env.img p m₀ = .ok mem := Loop.mapError_ok hinit
    have n := h.inv.newDir ha
    have hp : p ∈ insert p dirs := Finset.mem_insert_self ..
    obtain ⟨m₁, hmap, i⟩ := n.inv.mapImage_imaging hp
    have R₁ : Region env.img (insert p dirs) segs m₁ p USER_STACK_BOTTOM USER_STACK_TOP := by
      refine Region.of_unmapped i.inv segs fun a _ hhi => ?_
      have htop : USER_STACK_TOP = 0x3fffffd * PAGE_SIZE := by decide
      have hmax : USER_STACK_TOP < VA_MAX := by decide
      have hbelow : a / PAGE_SIZE < 0x3fffffd := Nat.div_lt_of_lt_mul (by rw [Nat.mul_comm, ← htop]; exact hhi)
      have hvpn : ∀ b < VA_MAX, 0x3fffffd ≤ b / PAGE_SIZE → vpn a ≠ vpn b := fun b hb hpage heq => by
        have := (vpn_eq_iff (by omega) hb).mp heq
        omega
      rw [i.rest, n.empty]
      unfold imagePages
      simp only [Finset.mem_insert, Finset.mem_singleton, not_or]
      exact ⟨hvpn _ (by decide) (by decide), hvpn _ (by decide) (by decide), hvpn _ (by decide) (by decide)⟩
    unfold initUserMemory at hinit
    rw [hmap, Loop.ok_bind] at hinit
    cases hpage : pageAlloc m₁ with
    | none =>
      rw [hpage] at hinit
      cases hinit
    | some x =>
      obtain ⟨y, m₂⟩ := x
      rw [hpage] at hinit
      obtain ⟨⟨r, m₃⟩, hins, hx⟩ := Loop.bind_ok hinit
      cases hx
      have hperm : PermOk (PTE_USER_BIT ||| PTE_READ_BIT ||| PTE_WRITE_BIT ||| PTE_EXECUTE_BIT) := by decide
      rcases i.inv.insertFresh hp (USER_STACK_TOP - PAGE_SIZE) hpage (m₂.ram y) hperm with
        ⟨m₄, hi, f, -⟩ | ⟨m₄, hi, hu, -⟩
      · rw [setPage_self] at hi
        obtain ⟨-, rfl⟩ := Prod.mk.inj (Except.ok.inj (hins.symm.trans hi))
        exact R₁.filled hp f (lazyEntry_of_bits y (by decide) (by decide) (by decide) (by decide)).readable.1
      · rw [setPage_self] at hi
        obtain ⟨-, rfl⟩ := Prod.mk.inj (Except.ok.inj (hins.symm.trans hi))
        exact R₁.congr hp hu.quiet.inv hu.quiet.view

variable (offset) in
/-- On a stack region of the process's own, for at most `MAX_ARG` strings of less than a page each, `initUserStack`
stays within `ustack`, returns when there is memory for the pages, and when it returns the program finds the strings,
the environment and the auxiliary vector, in blocks apart from each other. -/
theorem initUserStack_decodes (R : Region env.img dirs space.segmentMap m space.pgdir USER_STACK_BOTTOM USER_STACK_TOP)
    (hd : space.pgdir ∈ dirs) (hargc : argv.length ≤ MAX_ARG) (hargv : ∀ str ∈ argv, str.length ≤ PAGE_SIZE - 1)
    (hphdr : phdrAddr < 2 ^ 64) (hphnum : elf.phnum < 2 ^ 16) (haddr : addr < 2 ^ 64) :
    (∀ i ∈ ustackIndices argv.length, i < MAX_ARG + AT_VECTOR_SIZE) ∧
    initUserStack env space argv phdrAddr elf addr offset m ≠ .error .overrun ∧
    (6 * (argv.length + 5) ≤ m.freePageList.length →
      ∃ top m', initUserStack env space argv phdrAddr elf addr offset m = .ok (top, m')) ∧
    ∀ top m', initUserStack env space argv phdrAddr elf addr offset m = .ok (top, m') →
      ∃ args envs rand aux, UserStack (userByte env space m') top argv envVariable args envs rand aux ∧
        aux.lookup AT_PHDR = some phdrAddr ∧ aux.lookup AT_PHENT = some PHDR_SIZE ∧
        aux.lookup AT_PHNUM = some elf.phnum ∧ aux.lookup AT_BASE = some addr ∧
        aux.lookup AT_ENTRY = some (u64 (elf.entry + offset)) := by
  refine ⟨ustackIndices_lt hargc, initUserStack_slots hargc, exists_initUserStack R hd hargc hargv, fun top m' hok => ?_⟩
  obtain ⟨args, envs, rand, hstack⟩ := userStack_of_ok R hd hargc hargv hphdr hphnum haddr hok
  exact ⟨args, envs, rand, _, hstack, rfl, rfl, rfl, rfl, rfl⟩

end Whole

/-- A program of one argument, on the stack `exec` made. -/
theorem initUserStack_decodes_one : ∃ (dirs : Finset Ppn) (space : Space) (m : Mem),
    Region Image.sample dirs space.segmentMap m space.pgdir USER_STACK_BOTTOM USER_STACK_TOP ∧
      ∃ top m', initUserStack (scriptEnv true) space [[97]] 64 (Ehdr.read fun _ => 0) 0 0 m = .ok (top, m') ∧
        ∃ args envs rand aux,
          UserStack (userByte (scriptEnv true) space m') top [[97]] envVariable args envs rand aux ∧
            aux.lookup AT_PHDR = some 64 := by
  obtain ⟨dirs, st, hready, hlen⟩ := exists_ready
  have hr : Ready (scriptEnv true).img dirs st := hready
  obtain ⟨st', hrep, -, hfree⟩ := replaceSpace_ok hr (by omega)
  have R := region_replaceSpace st'.space.segmentMap hr hrep
  have hd : st'.space.pgdir ∈ insert st'.space.pgdir dirs := Finset.mem_insert_self ..
  have hargv : ∀ str ∈ [[(97 : UInt8)]], str.length ≤ PAGE_SIZE - 1 := by decide
  have hargc : [[(97 : UInt8)]].length ≤ MAX_ARG := by decide
  have hphdr : 64 < 2 ^ 64 := by decide
  have hphnum : (Ehdr.read fun _ => 0).phnum < 2 ^ 16 := by decide
  have haddr : 0 < 2 ^ 64 := by decide
  obtain ⟨-, -, hret, hdec⟩ := initUserStack_decodes 0 R hd hargc hargv hphdr hphnum haddr
  obtain ⟨top, m', hok⟩ := hret (by
    show 6 * (1 + 5) ≤ st'.mem.freePageList.length
    omega)
  obtain ⟨args, envs, rand, aux, hstack, hlookup, -⟩ := hdec top m' hok
  exact ⟨_, st'.space, st'.mem, R, top, m', hok, args, envs, rand, aux, hstack, hlookup⟩

end Exaros.Exec
