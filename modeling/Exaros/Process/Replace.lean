import Exaros.Memory.Loads
import Exaros.Process.Exec

/-!
# How `exec` replaces an address space

A level of `exec` makes a page directory that no process had, and only the level that loads an ELF file
frees one: the directory that was current when that level began. What a call leaves behind follows by
induction on the levels: the directory of a call that fails below its first level is not the old one, and a
call that succeeds below its first level frees none of those that were there before.
-/

namespace Exaros.Exec

/-- The process that calls: its directory is one of those in use, and not the kernel's. -/
structure Ready (img : Image) (dirs : Finset Ppn) (st : State) : Prop where
  inv : MemInv img st.mem dirs
  mem : st.space.pgdir ∈ dirs
  ne : st.space.pgdir ≠ img.kernelPageDirectory

section Level

variable {env : Env} {dirs : Finset Ppn} {st st' : State} {old : Ppn}

/-- **A new address space.** Its directory is none of those in use. -/
theorem replaceSpace_spec (h : Ready env.img dirs st) (hok : replaceSpace env st = .ok (old, st')) :
    old = st.space.pgdir ∧ st'.space.pgdir ∉ dirs ∧ Ready env.img (insert st'.space.pgdir dirs) st' := by
  obtain ⟨⟨old₁, st₁⟩, halloc, hok⟩ := Loop.bind_ok hok
  obtain ⟨mem, hinit, hx⟩ := Loop.bind_ok hok
  cases hx
  unfold execAllocPgdir at halloc
  cases ha : allocPgdir st.mem with
  | none =>
    rw [ha] at halloc
    cases halloc
  | some x =>
    obtain ⟨p, m⟩ := x
    rw [ha] at halloc
    cases halloc
    have n := h.inv.newDir ha
    have hp : p ∈ insert p dirs := Finset.mem_insert_self ..
    have k := kept_initUserMemory n.inv hp (Loop.mapError_ok hinit)
    refine ⟨rfl, n.fresh, k.inv n.inv, hp, fun heq => n.fresh ?_⟩
    have hroot : p = env.img.kernelPageDirectory := heq
    rw [hroot]
    exact h.inv.kernelDir

end Level

/-! ## What a call does -/

section Cases

variable {env : Env} {level : Nat} {path : List UInt8} {argv : List (List UInt8)} {st : State} {r : Result}

/-- A level that goes on as a call for the interpreter. -/
def Reenters (env : Env) (level src : Nat) : Prop :=
  isScriptFormat (header env level src) = true ∨ isElfFormat (header env level src) = false

theorem not_script_of_elf {b : Buf} (h : isElfFormat b = true) : isScriptFormat b = false := by
  unfold isScriptFormat
  have h0 : b 0 = 0x7f := (of_decide_eq_true h).1
  rw [h0]
  exact decide_eq_false fun hs => absurd hs.1 (by decide)

theorem not_reenters_iff {src : Nat} : ¬ Reenters env level src ↔ isElfFormat (header env level src) = true := by
  constructor
  · intro h
    exact Bool.eq_true_of_not_eq_false fun hf => h (.inr hf)
  · rintro h (hs | hf)
    · rw [not_script_of_elf h] at hs
      cases hs
    · rw [h] at hf
      cases hf

/-- What a call that returns has done at its first level. -/
theorem exec_cases (hok : exec env (level + 1) path argv st = .ok r) :
    (env.files.metaName path = none ∧ r = { ret := -1, st, made := [], freed := [] }) ∨
    (∃ src old st₁ path' argv' r', env.files.metaName path = some src ∧ replaceSpace env st = .ok (old, st₁) ∧
      Reenters env level src ∧ exec env level path' argv' st₁ = .ok r' ∧
      r = { r' with made := st₁.space.pgdir :: r'.made }) ∨
    (∃ src old st₁ st₂ mem, env.files.metaName path = some src ∧ replaceSpace env st = .ok (old, st₁) ∧
      ¬ Reenters env level src ∧ loadElf env level src argv (Ehdr.read (header env level src)) st₁ = .ok st₂ ∧
      pgdirFree old st₂.mem = .ok mem ∧
      r = { ret := 0, st := { st₂ with mem }, made := [st₂.space.pgdir], freed := [old] }) := by
  unfold exec at hok
  cases hn : env.files.metaName path with
  | none =>
    rw [hn] at hok
    cases hok
    exact .inl ⟨rfl, rfl⟩
  | some src =>
    rw [hn] at hok
    obtain ⟨⟨old, st₁⟩, hrep, hok⟩ := Loop.bind_ok hok
    refine .inr ?_
    simp only at hok
    split at hok
    · next hscript =>
      obtain ⟨⟨path', argv'⟩, -, hok⟩ := Loop.bind_ok hok
      obtain ⟨r', hr', hx⟩ := Loop.bind_ok hok
      cases hx
      exact .inl ⟨src, old, st₁, path', argv', r', rfl, hrep, .inl hscript, hr', rfl⟩
    · next hscript =>
      split at hok
      · next helf =>
        obtain ⟨r', hr', hx⟩ := Loop.bind_ok hok
        cases hx
        exact .inl ⟨src, old, st₁, _, _, r', rfl, hrep, .inr helf, hr', rfl⟩
      · next helf =>
        obtain ⟨st₂, hload, hok⟩ := Loop.bind_ok hok
        obtain ⟨mem, hfree, hx⟩ := Loop.bind_ok hok
        cases hx
        exact .inr ⟨src, old, st₁, st₂, mem, rfl, hrep, fun h => h.elim hscript helf, hload,
          Loop.mapError_ok hfree, rfl⟩

end Cases

/-! ## What loading an ELF file does to memory -/

section Load

variable {env : Env} {dirs : Finset Ppn} {interp level src : Nat} {sp sp' : Space} {m m' : Mem} {perm : Pte}
  {start len off n : Nat} {elf : Ehdr}

theorem mapAddr_lt (r : Int) : mapAddr r < 2 ^ 64 := by
  unfold mapAddr
  omega

theorem alignDown_lt {x : Nat} (h : x < 2 ^ 64) : alignDown x < 2 ^ 64 :=
  Nat.lt_of_le_of_lt (Nat.sub_le ..) h

/-- What the functions that load the interpreter keep: memory, and which directory they work on. -/
structure Loaded (img : Image) (dirs : Finset Ppn) (sp : Space) (m : Mem) (sp' : Space) (m' : Mem) : Prop where
  kept : Kept img dirs m m'
  pgdir : sp'.pgdir = sp.pgdir

theorem Loaded.refl (img : Image) (dirs : Finset Ppn) (sp : Space) (m : Mem) : Loaded img dirs sp m sp m :=
  ⟨Kept.refl img dirs m, rfl⟩

theorem Loaded.trans {sp₁ : Space} {m₁ : Mem} (l : Loaded env.img dirs sp m sp₁ m₁)
    (l' : Loaded env.img dirs sp₁ m₁ sp' m') : Loaded env.img dirs sp m sp' m' :=
  ⟨l.kept.trans l'.kept, l'.pgdir.trans l.pgdir⟩

theorem loaded_do_mmap {r : Int} (h : MemInv env.img m dirs) (hd : sp.pgdir ∈ dirs) (hstart : start < 2 ^ 64)
    (hperm : PermOk perm) (hok : do_mmap env.fuel sp start len perm m = .ok (r, sp', m')) :
    Loaded env.img dirs sp m sp' m' := by
  obtain ⟨k, hp, -⟩ := kept_do_mmap h hd hstart hperm hok
  exact ⟨k, hp⟩

theorem loaded_do_mmapFile {r : Int} (h : MemInv env.img m dirs) (hd : sp.pgdir ∈ dirs) (hstart : start < 2 ^ 64)
    (hperm : PermOk perm) (hok : do_mmapFile env interp sp start len perm off m = .ok (r, sp', m')) :
    Loaded env.img dirs sp m sp' m' := by
  obtain ⟨⟨r₁, sp₁, m₁⟩, hmap, hok⟩ := Loop.bind_ok hok
  have l := loaded_do_mmap h hd hstart hperm hmap
  simp only at hok
  split at hok
  · cases hok
    exact l
  · obtain ⟨m₂, hcopy, hx⟩ := Loop.bind_ok hok
    cases hx
    exact l.trans ⟨kept_copyout (l.kept.inv h) (l.pgdir ▸ hd) hcopy, rfl⟩

theorem loaded_elf_map {addr total : Nat} {ph : Phdr} (h : MemInv env.img m dirs) (hd : sp.pgdir ∈ dirs)
    (haddr : addr < 2 ^ 64) (hperm : PermOk perm)
    (hok : elf_map env interp sp addr ph perm total m = .ok (n, sp', m')) : Loaded env.img dirs sp m sp' m' := by
  unfold elf_map at hok
  simp only at hok
  split at hok
  · cases hok
    exact Loaded.refl ..
  · split at hok
    · obtain ⟨⟨r, sp₁, m₁⟩, hmap, hx⟩ := Loop.bind_ok hok
      cases hx
      exact loaded_do_mmapFile h hd (alignDown_lt haddr) hperm hmap
    · obtain ⟨⟨r, sp₁, m₁⟩, hmap, hok⟩ := Loop.bind_ok hok
      obtain ⟨⟨r₂, sp₂, m₂⟩, hfile, hx⟩ := Loop.bind_ok hok
      cases hx
      have l := loaded_do_mmap h hd (alignDown_lt haddr) hperm hmap
      exact l.trans (loaded_do_mmapFile (l.kept.inv h) (l.pgdir ▸ hd) (mapAddr_lt r) hperm hfile)

theorem loaded_interpStep {s s' : Interp} {ph : Phdr} (h : MemInv env.img s.mem dirs)
    (hd : s.space.pgdir ∈ dirs) (hok : interpStep env interp elf s ph = .ok s') :
    Loaded env.img dirs s.space s.mem s'.space s'.mem := by
  unfold interpStep at hok
  split at hok
  · cases hok
    exact Loaded.refl ..
  · obtain ⟨⟨addr, sp₁, m₁⟩, hmap, hok⟩ := Loop.bind_ok hok
    have hperm : PermOk (if elf.type = ET_EXEC ∨ s.load_addr_set then FIXED_PROT else make_prot) := by
      split <;> decide
    have l := loaded_elf_map h hd (Nat.mod_lt _ (by decide)) hperm (Loop.mapError_ok hmap)
    simp only at hok
    split at hok
    · cases hok
    · split at hok
      · cases hok
        exact l
      · cases hok
        exact l

theorem loaded_load_elf_interp {phdr : List Phdr} (h : MemInv env.img m dirs) (hd : sp.pgdir ∈ dirs)
    (hok : load_elf_interp env interp elf phdr sp m = .ok (n, sp', m')) : Loaded env.img dirs sp m sp' m' := by
  unfold load_elf_interp at hok
  split at hok
  · cases hok
    exact Loaded.refl ..
  · obtain ⟨s, hloop, hx⟩ := Loop.bind_ok hok
    cases hx
    exact Loop.foldlM_inv (Q := fun s => Loaded env.img dirs sp m s.space s.mem) hloop (Loaded.refl ..)
      fun s ph s' l hs => l.trans (loaded_interpStep (l.kept.inv h) (l.pgdir ▸ hd) hs)

/-- The page of the header table goes back where it came from. -/
theorem loaded_loadInterp {entry : Nat} (h : MemInv env.img m dirs) (hd : sp.pgdir ∈ dirs)
    (hok : loadInterp env level interp sp m = .ok (entry, n, sp', m')) : Loaded env.img dirs sp m sp' m' := by
  obtain ⟨⟨y, m₁⟩, hk, hok⟩ := Loop.bind_ok hok
  obtain ⟨⟨addr, sp₁, m₂⟩, hload, hok⟩ := Loop.bind_ok hok
  obtain ⟨m₃, hfree, hx⟩ := Loop.bind_ok hok
  cases hx
  have t := h.taken (kmalloc_eq_ok (Loop.mapError_ok hk))
  have l := loaded_load_elf_interp t.inv hd hload
  refine ⟨fun held hheld => ?_, l.pgdir⟩
  have hy : y ∉ held := fun hmem => (hheld.held y hmem).2.1.2.1 t.mem
  obtain ⟨held', hsub, hheld'⟩ := l.kept (insert y held) (hheld.taken t)
  refine ⟨held'.erase y, fun p hp => ?_, hheld'.kfree (hsub (Finset.mem_insert_self ..)) (Loop.mapError_ok hfree)⟩
  exact Finset.mem_erase.mpr ⟨fun hpy => hy (hpy ▸ hp), hsub (Finset.mem_insert_of_mem hp)⟩

theorem kept_push {room : Nat} {bs : List UInt8} {s s' : Stack} (h : MemInv env.img s.mem dirs) (hd : sp.pgdir ∈ dirs)
    (hok : push env sp room bs s = .ok s') : Kept env.img dirs s.mem s'.mem := by
  obtain ⟨m₁, hcopy, hx⟩ := Loop.bind_ok hok
  cases hx
  exact kept_copyout h hd hcopy

theorem kept_pushStrings {strs : List (List UInt8)} {s s' : Stack} (h : MemInv env.img s.mem dirs)
    (hd : sp.pgdir ∈ dirs) (hok : strs.foldlM (pushString env sp) s = .ok s') : Kept env.img dirs s.mem s'.mem :=
  Loop.foldlM_inv (Q := fun s' => Kept env.img dirs s.mem s'.mem) hok (Kept.refl _ _ _)
    fun _ _ _ k hs => k.trans (kept_push (k.inv h) hd hs)

theorem kept_initUserStack {argv : List (List UInt8)} {phdrAddr addr offset : Nat}
    (h : MemInv env.img m dirs) (hd : sp.pgdir ∈ dirs)
    (hok : initUserStack env sp argv phdrAddr elf addr offset m = .ok (n, m')) : Kept env.img dirs m m' := by
  unfold initUserStack at hok
  split at hok
  · cases hok
  · obtain ⟨args, hargs, hok⟩ := Loop.bind_ok hok
    obtain ⟨envs, henvs, hok⟩ := Loop.bind_ok hok
    obtain ⟨rand, hrand, hok⟩ := Loop.bind_ok hok
    obtain ⟨top, htop, hx⟩ := Loop.bind_ok hok
    cases hx
    have k₁ : Kept env.img dirs m args.mem := kept_pushStrings h hd (Loop.mapError_ok hargs)
    have hfold : envVariable.foldlM (pushString env sp) { args with addrs := [] } = .ok envs := Loop.mapError_ok henvs
    have k₂ : Kept env.img dirs args.mem envs.mem := kept_pushStrings (s := { args with addrs := [] }) (k₁.inv h) hd hfold
    have h₂ := k₂.inv (k₁.inv h)
    have k₃ := kept_push h₂ hd (Loop.mapError_ok hrand)
    have k₄ := kept_push (k₃.inv h₂) hd (Loop.mapError_ok htop)
    exact ((k₁.trans k₂).trans k₃).trans k₄

theorem loaded_loadElf {argv : List (List UInt8)} {st st' : State} (h : MemInv env.img st.mem dirs)
    (hd : st.space.pgdir ∈ dirs) (hok : loadElf env level src argv elf st = .ok st') :
    Loaded env.img dirs st.space st.mem st'.space st'.mem := by
  obtain ⟨t, -, hok⟩ := Loop.bind_ok hok
  simp only at hok
  split at hok
  · obtain ⟨⟨entry, addr, sp₁, m₁⟩, hint, hok⟩ := Loop.bind_ok hok
    obtain ⟨⟨sp, m₂⟩, hstack, hx⟩ := Loop.bind_ok hok
    cases hx
    have l : Loaded env.img dirs { st.space with segmentMap := t.segs } st.mem sp₁ m₁ := loaded_loadInterp h hd hint
    have hd₁ : sp₁.pgdir ∈ dirs := by
      rw [l.pgdir]
      exact hd
    exact ⟨l.kept.trans (kept_initUserStack (l.kept.inv h) hd₁ hstack), l.pgdir⟩
  · obtain ⟨x, hnone, hok⟩ := Loop.bind_ok hok
    cases hnone
    obtain ⟨⟨sp, m₂⟩, hstack, hx⟩ := Loop.bind_ok hok
    cases hx
    have hd₁ : ({ st.space with segmentMap := t.segs } : Space).pgdir ∈ dirs := hd
    exact ⟨kept_initUserStack h hd₁ hstack, rfl⟩

end Load

/-! ## Runs that return -/

/-- The top page of the user stack is mapped as `initUserMemory` maps it. -/
def StackPage (pgdir : Ppn) (m : Mem) : Prop :=
  ∃ y, view m pgdir (vpn (USER_STACK_TOP - PAGE_SIZE)) =
    some (touchPte y (PTE_USER_BIT ||| PTE_READ_BIT ||| PTE_WRITE_BIT ||| PTE_EXECUTE_BIT))

section Runs

variable {env : Env} {dirs : Finset Ppn} {sp : Space} {s : Stack} {m : Mem} {argv : List (List UInt8)}

/-- A level with room for its directory and its first pages gets as far as the file. -/
theorem replaceSpace_ok {st : State} (h : Ready env.img dirs st) (hlen : 10 ≤ st.mem.freePageList.length) :
    ∃ st', replaceSpace env st = .ok (st.space.pgdir, st') ∧ StackPage st'.space.pgdir st'.mem ∧
      st.mem.freePageList.length ≤ st'.mem.freePageList.length + 10 := by
  obtain ⟨p, m₁, ha⟩ := pageAlloc_of_pos (m := st.mem) (by omega)
  have halloc : allocPgdir st.mem = some (p, m₁.incRef p) := by
    unfold allocPgdir
    rw [ha]
    rfl
  have n := h.inv.newDir halloc
  have hfree : st.mem.freePageList.length = (m₁.incRef p).freePageList.length + 1 := by
    rw [n.free, List.length_cons]
  obtain ⟨m', y, hinit, hv, hl⟩ := n.inv.initUserMemory_ok (Finset.mem_insert_self p dirs) (by omega)
  refine ⟨{ st with space := Space.fresh p [], mem := m' }, ?_, ⟨y, hv⟩, ?_⟩
  · unfold replaceSpace execAllocPgdir
    simp only [halloc, bind, Except.bind, hinit, Except.mapError]
    rfl
  · show st.mem.freePageList.length ≤ m'.freePageList.length + 10
    omega

/-- Bytes pushed on the new stack. -/
theorem push_ok (room : Nat) (bs : List UInt8) (h : MemInv env.img s.mem dirs) (hd : sp.pgdir ∈ dirs)
    (hpage : StackPage sp.pgdir s.mem) (hlow : USER_STACK_TOP - PAGE_SIZE + room + 15 ≤ s.sp)
    (hhigh : s.sp ≤ USER_STACK_TOP) (hbs : bs.length ≤ room) (hpos : 0 < room) :
    ∃ s', push env sp room bs s = .ok s' ∧ StackPage sp.pgdir s'.mem ∧ s.sp ≤ s'.sp + room + 15 ∧
      s'.sp ≤ USER_STACK_TOP := by
  obtain ⟨y, hv⟩ := hpage
  have htop : USER_STACK_TOP = 0x3fffffd000 := by decide
  have hmax : VA_MAX = 0x4000000000 := by decide
  have hsize : PAGE_SIZE = 0x1000 := rfl
  rw [htop, hsize] at hlow
  rw [htop] at hhigh
  have hsp : pushSp s.sp room = s.sp - room - (s.sp - room) % 16 := by
    unfold pushSp u64
    simp only
    omega
  have hlt : pushSp s.sp room < VA_MAX := by omega
  have hvpn : vpn (pushSp s.sp room) = vpn (USER_STACK_TOP - PAGE_SIZE) := by
    rw [vpn_eq_iff hlt (by decide)]
    rw [htop, hsize]
    omega
  have hfit : pushSp s.sp room % PAGE_SIZE + bs.length ≤ PAGE_SIZE := by
    rw [hsize]
    omega
  rw [← hvpn] at hv
  have huser : pteHas (touchPte y (PTE_USER_BIT ||| PTE_READ_BIT ||| PTE_WRITE_BIT ||| PTE_EXECUTE_BIT)) PTE_USER_BIT =
      true := by
    unfold touchPte PTE_USER_BIT
    rw [pteHas_bit _ 4 (by omega), getLsbD_mkPte_low _ _ (by omega)]
    decide
  have hcow : pteHas (touchPte y (PTE_USER_BIT ||| PTE_READ_BIT ||| PTE_WRITE_BIT ||| PTE_EXECUTE_BIT)) PTE_COW_BIT =
      false := by
    unfold touchPte PTE_COW_BIT
    rw [pteHas_bit _ 8 (by omega), getLsbD_mkPte_low _ _ (by omega)]
    decide
  obtain ⟨m', hcopy, hview⟩ := h.copyout_mapped sp.segmentMap env.page hd hlt hv huser hcow hfit
  refine ⟨{ sp := pushSp s.sp room, mem := m', addrs := s.addrs ++ [pushSp s.sp room] }, ?_, ⟨y, ?_⟩, ?_, ?_⟩
  · unfold push
    simp only [bind, Except.bind, hcopy]
    rfl
  · rw [hview, ← hvpn]
    exact hv
  · show s.sp ≤ pushSp s.sp room + room + 15
    omega
  · show pushSp s.sp room ≤ USER_STACK_TOP
    omega

/-- How far a list of strings can take the stack pointer down. -/
def stringRoom (strs : List (List UInt8)) : Nat := (strs.map fun str => str.length + 16).sum

theorem pushStrings_ok {strs : List (List UInt8)} (h : MemInv env.img s.mem dirs) (hd : sp.pgdir ∈ dirs)
    (hpage : StackPage sp.pgdir s.mem) (hlow : USER_STACK_TOP - PAGE_SIZE + stringRoom strs ≤ s.sp)
    (hhigh : s.sp ≤ USER_STACK_TOP) :
    ∃ s', strs.foldlM (pushString env sp) s = .ok s' ∧ StackPage sp.pgdir s'.mem ∧ s.sp ≤ s'.sp + stringRoom strs ∧
      s'.sp ≤ USER_STACK_TOP := by
  induction strs generalizing s with
  | nil => exact ⟨s, rfl, hpage, Nat.le_add_right .., hhigh⟩
  | cons str strs ih =>
    have hroom : stringRoom (str :: strs) = str.length + 16 + stringRoom strs := by
      unfold stringRoom
      rw [List.map_cons, List.sum_cons]
    obtain ⟨s₁, h₁, hpage₁, hsp₁, hhigh₁⟩ := push_ok (str.length + 1) (str ++ [0]) h hd hpage (by omega)
      hhigh (by simp) (by omega)
    have k := kept_push h hd h₁
    obtain ⟨s', h', hpage', hsp', hhigh'⟩ := ih (k.inv h) hpage₁ (by omega) hhigh₁
    refine ⟨s', ?_, hpage', by omega, hhigh'⟩
    rw [List.foldlM_cons]
    unfold pushString at h₁ h' ⊢
    rw [h₁]
    exact h'

theorem length_wordBytes (ws : List Nat) : (ws.flatMap wordBytes).length = 8 * ws.length := by
  induction ws with
  | nil => rfl
  | cons w ws ih =>
    rw [List.flatMap_cons, List.length_append, ih, List.length_cons]
    have : (wordBytes w).length = 8 := by simp [wordBytes]
    omega

theorem pushStrings_addrs {strs : List (List UInt8)} {s s' : Stack}
    (hok : strs.foldlM (pushString env sp) s = .ok s') : s'.addrs.length = s.addrs.length + strs.length := by
  induction strs generalizing s with
  | nil =>
    cases hok
    rfl
  | cons str strs ih =>
    rw [List.foldlM_cons] at hok
    obtain ⟨s₁, h₁, hok⟩ := Loop.bind_ok hok
    obtain ⟨m₁, -, hx⟩ := Loop.bind_ok h₁
    cases hx
    rw [ih hok]
    simp only [List.length_append, List.length_cons, List.length_nil]
    omega

theorem initUserStack_eq {phdrAddr addr offset : Nat} {elf : Ehdr}
    {args envs rand top : Stack} {src : List UInt8} (hfit : ¬ MAX_ARG + AT_VECTOR_SIZE < argv.length + 36)
    (hargs : argv.foldlM (pushString env sp) ⟨USER_STACK_TOP, m, []⟩ = .ok args)
    (henv : envVariable.foldlM (pushString env sp) { args with addrs := [] } = .ok envs)
    (hrand : push env sp 32 k_rand_bytes envs = .ok rand)
    (hsrc : src = ([argv.length] ++ args.addrs ++ [0] ++ envs.addrs ++ [0] ++
      auxv phdrAddr elf.phnum addr (u64 (elf.entry + offset)) rand.sp (args.addrs.headD 0)).flatMap wordBytes)
    (htop : push env sp src.length src rand = .ok top) :
    initUserStack env sp argv phdrAddr elf addr offset m = .ok (top.sp, top.mem) := by
  unfold initUserStack
  rw [if_neg hfit]
  rw [Loop.ok_mapError Stop.mem hargs, Loop.ok_bind, Loop.ok_mapError Stop.mem henv, Loop.ok_bind,
    Loop.ok_mapError Stop.mem hrand, Loop.ok_bind]
  dsimp only
  rw [← hsrc, Loop.ok_mapError Stop.mem htop, Loop.ok_bind]
  rfl

/-- A short argument list fits on the top page of the stack. -/
theorem initUserStack_ok (phdrAddr addr offset : Nat) (elf : Ehdr)
    (h : MemInv env.img m dirs) (hd : sp.pgdir ∈ dirs) (hpage : StackPage sp.pgdir m)
    (hargc : argv.length ≤ 42) (hroom : stringRoom argv ≤ 2048) :
    ∃ n m', initUserStack env sp argv phdrAddr elf addr offset m = .ok (n, m') := by
  have henvs : stringRoom envVariable ≤ 256 := by decide
  have hsize : PAGE_SIZE = 4096 := rfl
  have htop : PAGE_SIZE ≤ USER_STACK_TOP := by decide
  obtain ⟨args, hargs, hp₁, hs₁, hh₁⟩ := pushStrings_ok (s := ⟨USER_STACK_TOP, m, []⟩) h hd hpage
    (show USER_STACK_TOP - PAGE_SIZE + stringRoom argv ≤ USER_STACK_TOP by omega) (Nat.le_refl _)
  have h₁ : MemInv env.img args.mem dirs := (kept_pushStrings (s := ⟨USER_STACK_TOP, m, []⟩) h hd hargs).inv h
  have hs₁' : USER_STACK_TOP ≤ args.sp + stringRoom argv := hs₁
  obtain ⟨envs, henv, hp₂, hs₂, hh₂⟩ := pushStrings_ok (s := { args with addrs := [] }) h₁ hd hp₁
    (show USER_STACK_TOP - PAGE_SIZE + stringRoom envVariable ≤ args.sp by omega) hh₁
  have h₂ : MemInv env.img envs.mem dirs :=
    (kept_pushStrings (s := { args with addrs := [] }) h₁ hd henv).inv h₁
  have hs₂' : args.sp ≤ envs.sp + stringRoom envVariable := hs₂
  obtain ⟨rand, hrand, hp₃, hs₃, hh₃⟩ := push_ok 32 k_rand_bytes h₂ hd hp₂ (by omega) hh₂
    (by decide) (by omega)
  have h₃ := (kept_push h₂ hd hrand).inv h₂
  have hargsLen : args.addrs.length = argv.length := by
    have := pushStrings_addrs hargs
    simpa using this
  have henvsLen : envs.addrs.length = 3 := by
    have := pushStrings_addrs henv
    simpa [envVariable] using this
  obtain ⟨ustack, hustack⟩ : ∃ ustack, ustack = [argv.length] ++ args.addrs ++ [0] ++ envs.addrs ++ [0] ++
    auxv phdrAddr elf.phnum addr (u64 (elf.entry + offset)) rand.sp (args.addrs.headD 0) := ⟨_, rfl⟩
  have hlen : (ustack.flatMap wordBytes).length = 8 * (argv.length + 36) := by
    rw [length_wordBytes, hustack]
    simp only [List.length_append, List.length_cons, List.length_nil, hargsLen, henvsLen, auxv]
    omega
  obtain ⟨top, htop', -⟩ := push_ok (ustack.flatMap wordBytes).length (ustack.flatMap wordBytes) h₃ hd
    hp₃ (by omega) hh₃ (Nat.le_refl _) (by omega)
  refine ⟨top.sp, top.mem, initUserStack_eq ?_ hargs henv hrand (by rw [hustack]) htop'⟩
  unfold MAX_ARG AT_VECTOR_SIZE
  omega

/-- An ELF file without program headers loads. -/
theorem loadElf_ok {elf : Ehdr} {st : State} (level src : Nat) (hphnum : elf.phnum = 0)
    (h : MemInv env.img st.mem dirs) (hd : st.space.pgdir ∈ dirs) (hpage : StackPage st.space.pgdir st.mem)
    (hargc : argv.length ≤ 42) (hroom : stringRoom argv ≤ 2048) :
    ∃ st', loadElf env level src argv elf st = .ok st' := by
  have htraverse : segmentTraverse env level src elf (if elf.type = ET_DYN then 0x10000 else 0) =
      .ok { ph := (env.locals level).ph, segs := [], phdrAddr := 0, interpMeta := none } := by
    unfold segmentTraverse
    rw [hphnum]
    rfl
  have hd' : ({ st.space with segmentMap := [] } : Space).pgdir ∈ dirs := hd
  obtain ⟨n, m', hstack⟩ := initUserStack_ok 0 0 (if elf.type = ET_DYN then 0x10000 else 0) elf h hd' hpage hargc hroom
  refine ⟨{ space := { st.space with segmentMap := [] }, mem := m', execFile := some src, clearChildTid := 0, a1 := n
            epc := u64 (elf.entry + if elf.type = ET_DYN then 0x10000 else 0), sp := n }, ?_⟩
  unfold loadElf
  dsimp only
  rw [htraverse, Loop.ok_bind]
  dsimp only at hstack ⊢
  rw [Loop.ok_bind]
  rw [hstack, Loop.ok_bind]
  rfl

/-- A level that finds a script goes on as a call for the interpreter. -/
theorem exec_script {level src : Nat} {path path' : List UInt8} {argv argv' : List (List UInt8)} {old : Ppn}
    {st st₁ : State} {r : Result} (hn : env.files.metaName path = some src)
    (hrep : replaceSpace env st = .ok (old, st₁)) (hscript : isScriptFormat (header env level src) = true)
    (hload : loadScript env level src argv = .ok (path', argv')) (hr : exec env level path' argv' st₁ = .ok r) :
    exec env (level + 1) path argv st = .ok { r with made := st₁.space.pgdir :: r.made } := by
  rw [exec, hn]
  dsimp only
  rw [hrep, Loop.ok_bind]
  rw [if_pos hscript, hload, Loop.ok_bind]
  rw [hr, Loop.ok_bind]
  rfl

theorem exec_missing {level : Nat} {path : List UInt8} (argv : List (List UInt8)) (st : State)
    (hn : env.files.metaName path = none) :
    exec env (level + 1) path argv st = .ok { ret := -1, st, made := [], freed := [] } := by
  rw [exec, hn]

/-- A level that finds an ELF file without program headers succeeds. -/
theorem exec_elf_ok (level src : Nat) (path : List UInt8) (argv : List (List UInt8)) {st : State}
    (h : Ready env.img dirs st) (hlen : 10 ≤ st.mem.freePageList.length) (hn : env.files.metaName path = some src)
    (helf : isElfFormat (header env level src) = true) (hphnum : (Ehdr.read (header env level src)).phnum = 0)
    (hargc : argv.length ≤ 42) (hroom : stringRoom argv ≤ 2048) :
    ∃ r, exec env (level + 1) path argv st = .ok r ∧ r.ret = 0 := by
  obtain ⟨st₁, hrep, hpage, -⟩ := replaceSpace_ok h hlen
  obtain ⟨-, -, hready⟩ := replaceSpace_spec h hrep
  obtain ⟨st₂, hload⟩ := loadElf_ok level src hphnum hready.inv hready.mem hpage hargc hroom
  have l := loaded_loadElf hready.inv hready.mem hload
  obtain ⟨mem, hfree, -⟩ := (l.kept.inv hready.inv).pgdirFree (Finset.mem_insert_of_mem h.mem) h.ne
  refine ⟨{ ret := 0, st := { st₂ with mem }, made := [st₂.space.pgdir], freed := [st.space.pgdir] }, ?_, rfl⟩
  rw [exec, hn]
  dsimp only
  rw [hrep, Loop.ok_bind]
  have hscript := not_script_of_elf helf
  rw [if_neg (by rw [hscript]; decide), if_neg (by rw [helf]; decide), hload, Loop.ok_bind,
    Loop.ok_mapError Stop.mem hfree, Loop.ok_bind]
  rfl

end Runs

/-! ## A volume with a script -/

/-- The script `/s` begins with the line `#!/e`; `/e` is an ELF file, if it is there. -/
def scriptFiles (elf : Bool) : Files where
  metaName path :=
    if path = bytes ['/', 's'] then some 0
    else if elf ∧ path = bytes ['/', 'e'] then some 1
    else none
  metaRead src off n :=
    ((if src = 0 then bytes ['#', '!', '/', 'e', '\n'] else [0x7f, 0x45, 0x4c, 0x46]).drop off).take n

def scriptEnv (elf : Bool) : Env where
  img := Image.sample
  files := scriptFiles elf
  locals := fun _ => { elfHeader := fun _ => 0, script_head := fun _ => 0, ph := fun _ => 0, interpElfHeader := fun _ => 0 }
  page := fun _ _ => 0
  fuel := 0

theorem loadScript_scriptEnv (elf : Bool) :
    loadScript (scriptEnv elf) 1 0 [] = .ok (bytes ['/', 'e'], [bytes ['/', 'e']]) := by
  cases elf <;> decide +kernel

theorem exists_ready : ∃ dirs st, Ready Image.sample dirs st ∧ 100 ≤ st.mem.freePageList.length := by
  obtain ⟨dirs, d, m, hinv, hd, hne, hlen⟩ := exists_process
  exact ⟨dirs, ⟨Space.fresh d [], m, none, 0, 0, 0, 0⟩, ⟨hinv, hd, hne⟩, hlen⟩

/-! ## The directory a call leaves the process on -/

section Current

variable {env : Env} {dirs : Finset Ppn} {level : Nat} {path : List UInt8} {argv : List (List UInt8)} {st : State}
  {r : Result}

/-- A call that finds its file leaves the process on a directory that none had before. -/
theorem pgdir_fresh (h : Ready env.img dirs st) (hok : exec env level path argv st = .ok r)
    (hfound : env.files.metaName path ≠ none) : r.st.space.pgdir ∉ dirs := by
  -- The levels below see one directory more, so theirs is new to the directories of this level too.
  induction level generalizing dirs path argv st r with
  | zero => cases hok
  | succ level ih =>
    rcases exec_cases hok with ⟨hn, -⟩ | ⟨src, old, st₁, path', argv', r', hn, hrep, -, hr', rfl⟩ |
      ⟨src, old, st₁, st₂, mem, -, hrep, -, hload, -, rfl⟩
    · exact absurd hn hfound
    · obtain ⟨-, hfresh, hready⟩ := replaceSpace_spec h hrep
      by_cases hfound' : env.files.metaName path' = none
      · cases level with
        | zero => cases hr'
        | succ level =>
          rcases exec_cases hr' with ⟨-, rfl⟩ | ⟨src', _, _, _, _, _, hn', -⟩ | ⟨src', _, _, _, _, hn', -⟩
          · exact hfresh
          · rw [hfound'] at hn'
            cases hn'
          · rw [hfound'] at hn'
            cases hn'
      · exact fun hmem => ih hready hr' hfound' (Finset.mem_insert_of_mem hmem)
    · obtain ⟨-, hfresh, hready⟩ := replaceSpace_spec h hrep
      have l := loaded_loadElf hready.inv hready.mem hload
      rw [l.pgdir]
      exact hfresh

theorem found_of_ret_zero (hok : exec env level path argv st = .ok r) (hret : r.ret = 0) :
    env.files.metaName path ≠ none := by
  intro hn
  cases level with
  | zero => cases hok
  | succ level =>
    unfold exec at hok
    rw [hn] at hok
    cases hok
    simp at hret

end Current

/-! ## Failure -/

/-- The caller's directory, segments, heaps and mappings are as before, and every free page is still free. -/
structure Intact (st st' : State) : Prop where
  space : st'.space = st.space
  view : ∀ v, view st'.mem st.space.pgdir v = view st.mem st.space.pgdir v
  free : ∀ p ∈ st.mem.freePageList, p ∈ st'.mem.freePageList

section Failure

variable {env : Env} {dirs : Finset Ppn} {level : Nat} {path : List UInt8} {argv : List (List UInt8)} {st : State}
  {r : Result}

/-- A call of `exec` that returns `-1` leaves the caller intact exactly when it did not find its own file: a
script or a file of unknown format whose interpreter is missing leaves the process on the directory that the
innermost level made. -/
theorem exec_failure_intact_iff (h : Ready env.img dirs st) (hok : exec env level path argv st = .ok r)
    (hret : r.ret = -1) : Intact st r.st ↔ env.files.metaName path = none := by
  constructor
  · intro hi
    by_contra hfound
    apply pgdir_fresh h hok hfound
    rw [hi.space]
    exact h.mem
  · intro hn
    cases level with
    | zero => cases hok
    | succ level =>
      rcases exec_cases hok with ⟨-, rfl⟩ | ⟨src, _, _, _, _, _, hn', -⟩ | ⟨src, _, _, _, _, hn', -⟩
      · exact ⟨rfl, fun _ => rfl, fun _ hp => hp⟩
      · rw [hn] at hn'
        cases hn'
      · rw [hn] at hn'
        cases hn'

end Failure

/-- The script `/s` is called and its interpreter `/e` does not exist. -/
theorem exists_exec_failed_script : ∃ dirs st r, Ready Image.sample dirs st ∧
    exec (scriptEnv false) 2 (bytes ['/', 's']) [] st = .ok r ∧ r.ret = -1 := by
  obtain ⟨dirs, st, hready, hlen⟩ := exists_ready
  have hr : Ready (scriptEnv false).img dirs st := hready
  obtain ⟨st₁, hrep, -⟩ := replaceSpace_ok hr (by omega)
  exact ⟨dirs, st, _, hready, exec_script rfl hrep rfl (loadScript_scriptEnv false) (exec_missing _ _ rfl), rfl⟩

/-- A script whose interpreter is missing. -/
theorem exec_failure_intact_iff_script : ∃ dirs st r, Ready Image.sample dirs st ∧
    exec (scriptEnv false) 2 (bytes ['/', 's']) [] st = .ok r ∧ r.ret = -1 ∧
    (Intact st r.st ↔ (scriptEnv false).files.metaName (bytes ['/', 's']) = none) := by
  obtain ⟨dirs, st, r, hready, hok, hret⟩ := exists_exec_failed_script
  exact ⟨dirs, st, r, hready, hok, hret, exec_failure_intact_iff hready hok hret⟩

/-- It fails with the new page directory in place. -/
theorem exec_failure_not_intact : ∃ dirs st r, Ready Image.sample dirs st ∧
    exec (scriptEnv false) 2 (bytes ['/', 's']) [] st = .ok r ∧ r.ret = -1 ∧ ¬ Intact st r.st := by
  obtain ⟨dirs, st, r, hready, hok, hret⟩ := exists_exec_failed_script
  refine ⟨dirs, st, r, hready, hok, hret, fun hi => ?_⟩
  have hr : Ready (scriptEnv false).img dirs st := hready
  apply pgdir_fresh hr hok (by simp [scriptEnv, scriptFiles])
  rw [hi.space]
  exact hr.mem

/-! ## Success -/

/-- A directory of `dirs` has the page as a table or maps it. -/
def InUse (m : Mem) (dirs : Finset Ppn) (p : Ppn) : Prop :=
  IsTable m dirs p ∨ ∃ d ∈ dirs, ∃ v, target m (d, v) = some p

/-- Every directory the process had or made, but its current one, was freed once, and the pages that are
counted are those of the new image and of the other directories. -/
structure Released (img : Image) (dirs : Finset Ppn) (st : State) (r : Result) : Prop where
  once : ∀ d, d = st.space.pgdir ∨ d ∈ r.made → d ≠ r.st.space.pgdir → r.freed.count d = 1
  live : ∀ p, img.Above p →
    (r.st.mem.ref p ≠ 0 ↔ InUse r.st.mem (insert r.st.space.pgdir (dirs.erase st.space.pgdir)) p)

/-- The path names an ELF file. -/
def IsElf (env : Env) (level : Nat) (path : List UInt8) : Prop :=
  ∃ src, env.files.metaName path = some src ∧ isElfFormat (header env level src) = true

section Success

variable {env : Env} {dirs : Finset Ppn} {level : Nat} {path : List UInt8} {argv : List (List UInt8)} {st : State}
  {r : Result}

theorem inUse_iff {img : Image} {m : Mem} {p : Ppn} (h : MemInv img m dirs) (hp : img.Above p) :
    m.ref p ≠ 0 ↔ InUse m dirs p := by
  have href := h.ref_above p hp
  constructor
  · intro h0
    by_cases ht : IsTable m dirs p
    · exact .inl ht
    · refine .inr ?_
      by_contra hno
      have hz : leafRefs m dirs p = 0 := leafRefs_eq_zero.mpr fun d hd v e he hpe =>
        hno ⟨d, hd, v, target_eq_some_iff.mpr ⟨e, he, hpe⟩⟩
      rw [hz, tableRefs_of_not ht] at href
      exact h0 (BitVec.eq_of_toNat_eq href)
  · rintro (ht | ⟨d, hd, v, hv⟩) h0
    · rw [h0, tableRefs_of_isTable ht] at href
      simp at href
    · obtain ⟨e, he, rfl⟩ := target_eq_some_iff.mp hv
      have hpos := h.ref_pos hd he
      rw [h0] at hpos
      simp at hpos

/-- A call that loads an ELF file frees the directory its level began with, so one whose first level goes on
as another call frees none of those in use before. -/
theorem freed_fresh (h : Ready env.img dirs st) (hok : exec env level path argv st = .ok r) (d : Ppn)
    (hd : d ∈ r.freed) (hmem : d ∈ dirs) : d = st.space.pgdir ∧ IsElf env (level - 1) path := by
  induction level generalizing dirs path argv st r with
  | zero => cases hok
  | succ level ih =>
    rcases exec_cases hok with ⟨-, rfl⟩ | ⟨src, old, st₁, path', argv', r', -, hrep, -, hr', rfl⟩ |
      ⟨src, old, st₁, st₂, mem, hn, hrep, helf, -, -, rfl⟩
    · cases hd
    · obtain ⟨-, hfresh, hready⟩ := replaceSpace_spec h hrep
      have hnested := (ih hready hr' hd (Finset.mem_insert_of_mem hmem)).1
      exact absurd (hnested ▸ hmem) hfresh
    · obtain ⟨rfl, -, -⟩ := replaceSpace_spec h hrep
      exact ⟨List.mem_singleton.mp hd, src, hn, not_reenters_iff.mp helf⟩

/-- An ELF file replaces the old address space by the new one. -/
theorem released_of_elf (h : Ready env.img dirs st) (hok : exec env (level + 1) path argv st = .ok r)
    (helf : IsElf env level path) : Released env.img dirs st r := by
  obtain ⟨src', hn', helf'⟩ := helf
  rcases exec_cases hok with ⟨hn, -⟩ | ⟨src, old, st₁, path', argv', r', hn, -, hre, -, -⟩ |
    ⟨src, old, st₁, st₂, mem, hn, hrep, -, hload, hfree, rfl⟩
  · rw [hn] at hn'
    cases hn'
  · rw [hn] at hn'
    cases hn'
    exact absurd hre (not_reenters_iff.mpr helf')
  · obtain ⟨rfl, hfresh, hready⟩ := replaceSpace_spec h hrep
    have l := loaded_loadElf hready.inv hready.mem hload
    have hold : st.space.pgdir ∈ insert st₁.space.pgdir dirs := Finset.mem_insert_of_mem h.mem
    have hne : st₁.space.pgdir ≠ st.space.pgdir := fun heq => hfresh (heq ▸ h.mem)
    obtain ⟨mem', hfree', hgone⟩ := (l.kept.inv hready.inv).pgdirFree hold h.ne
    obtain rfl : mem = mem' := Except.ok.inj (hfree.symm.trans hfree')
    refine ⟨fun d hd hcur => ?_, fun p hp => ?_⟩
    · rcases hd with rfl | hd
      · exact List.count_singleton_self
      · exact absurd (List.mem_singleton.mp hd) hcur
    · have hdirs : (insert st₁.space.pgdir dirs).erase st.space.pgdir =
          insert st₁.space.pgdir (dirs.erase st.space.pgdir) := Finset.erase_insert_of_ne hne
      have hinv := hgone.inv
      rw [hdirs, ← l.pgdir] at hinv
      exact inUse_iff hinv hp

/-- A call of `exec` that returns `0` releases every directory but the current one exactly when its path names an
ELF file itself: with a script or a file of unknown format in between, the old directory is never freed. -/
theorem exec_releases_iff (h : Ready env.img dirs st) (hok : exec env (level + 1) path argv st = .ok r)
    (hret : r.ret = 0) : Released env.img dirs st r ↔ IsElf env level path := by
  constructor
  · intro hrel
    -- A nested call works on a directory that is not the old one, so the old one has to have been freed.
    have hcur : st.space.pgdir ≠ r.st.space.pgdir := by
      intro heq
      apply pgdir_fresh h hok (found_of_ret_zero hok hret)
      rw [← heq]
      exact h.mem
    have hcount := hrel.once _ (.inl rfl) hcur
    have hmem : st.space.pgdir ∈ r.freed := List.count_pos_iff.mp (by omega)
    exact (freed_fresh h hok _ hmem h.mem).2
  · exact released_of_elf h hok

end Success

/-- The script `/s` is called and its interpreter `/e` is an ELF file. -/
theorem exists_exec_script : ∃ dirs st r, Ready Image.sample dirs st ∧
    exec (scriptEnv true) 2 (bytes ['/', 's']) [] st = .ok r ∧ r.ret = 0 := by
  obtain ⟨dirs, st, hready, hlen⟩ := exists_ready
  have hr : Ready (scriptEnv true).img dirs st := hready
  obtain ⟨st₁, hrep, -, hlen₁⟩ := replaceSpace_ok hr (by omega)
  obtain ⟨-, -, hready₁⟩ := replaceSpace_spec hr hrep
  obtain ⟨r, hok, hret⟩ := exec_elf_ok 0 1 (bytes ['/', 'e']) [bytes ['/', 'e']] hready₁ (by omega) rfl rfl
    (by decide +kernel) (by decide) (by decide)
  exact ⟨dirs, st, _, hready, exec_script rfl hrep rfl (loadScript_scriptEnv true) hok, hret⟩

/-- A script whose interpreter is there. -/
theorem exec_releases_iff_script : ∃ dirs st r, Ready Image.sample dirs st ∧
    exec (scriptEnv true) 2 (bytes ['/', 's']) [] st = .ok r ∧ r.ret = 0 ∧
    (Released Image.sample dirs st r ↔ IsElf (scriptEnv true) 1 (bytes ['/', 's'])) := by
  obtain ⟨dirs, st, r, hready, hok, hret⟩ := exists_exec_script
  exact ⟨dirs, st, r, hready, hok, hret, exec_releases_iff hready hok hret⟩

/-- It succeeds, and the page directory made for the script is not given back. -/
theorem exec_not_released : ∃ dirs st r, Ready Image.sample dirs st ∧
    exec (scriptEnv true) 2 (bytes ['/', 's']) [] st = .ok r ∧ r.ret = 0 ∧ ¬ Released Image.sample dirs st r := by
  obtain ⟨dirs, st, r, hready, hok, hret⟩ := exists_exec_script
  refine ⟨dirs, st, r, hready, hok, hret, fun hrel => ?_⟩
  have hr : Ready (scriptEnv true).img dirs st := hready
  have hcur : st.space.pgdir ≠ r.st.space.pgdir := fun heq =>
    pgdir_fresh hr hok (found_of_ret_zero hok hret) (heq ▸ hr.mem)
  have hcount := hrel.once _ (.inl rfl) hcur
  obtain ⟨-, src, hsrc, helf⟩ := freed_fresh hr hok _ (List.count_pos_iff.mp (by omega)) hr.mem
  cases hsrc
  exact absurd helf (by decide)

end Exaros.Exec
