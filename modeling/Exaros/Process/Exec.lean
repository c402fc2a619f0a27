import Exaros.Memory.Bytes
import Mathlib.Data.List.DropRight

/-!
# `exec`

`kernel/process/exec.c`. A file is what `metaName` finds for a path and what `metaRead` delivers of it; the
two are parameters, so nothing depends on how the volume stores it. A local that the source does not
initialise starts with arbitrary bytes (`Locals`), and `metaRead` overwrites as many as it delivers.

A level of `exec` that finds a script or an unknown format goes on as a call of `exec` on the interpreter.
Beside its result a call records which page directories it made and which it gave to `pgdirFree`.
-/

namespace Exaros.Exec

/-- Bytes of a local array, and past its end. -/
abbrev Buf := Nat → UInt8

/-- `metaRead` into `old`. -/
def fill (bytes : List UInt8) (old : Buf) : Buf := fun i => bytes.getD i (old i)

/-- A little-endian field of `n` bytes. -/
def field (b : Buf) (off n : Nat) : Nat := (List.range n).foldr (fun i x => x * 256 + (b (off + i)).toNat) 0

def bytes (s : List Char) : List UInt8 := s.map fun c => UInt8.ofNat c.toNat

def u32 (x : Nat) : Nat := x % 2 ^ 32

/-- The file system as `exec` sees it. -/
structure Files where
  metaName : List UInt8 → Option Nat
  metaRead : Nat → Nat → Nat → List UInt8

/-- What the uninitialised locals of one level hold. -/
structure Locals where
  elfHeader : Buf
  script_head : Buf
  ph : Buf
  interpElfHeader : Buf

/-- What a call of `exec` runs against: the image, the files, the locals of each level, the contents of pages
brought in on demand, and the fuel of the loops over pages. -/
structure Env where
  img : Image
  files : Files
  locals : Nat → Locals
  page : Nat → Idx → BitVec 64
  fuel : Nat

/-- The fields of the process, its thread and its trap frame that `exec` writes, and memory. -/
structure State where
  space : Space
  mem : Mem
  execFile : Option Nat
  clearChildTid : Nat
  a1 : Nat
  epc : Nat
  sp : Nat

/-- Where the kernel stops for good inside `exec`. -/
inductive Stop
  /-- a panic of the memory functions -/
  | mem (e : Panic)
  /-- `execAllocPgdir`: "setup page alloc error" -/
  | setupPage
  /-- `segmentTraverse`: "interpreter path too long or too short!" -/
  | interpPath
  /-- `segmentTraverse`: "open interpreter error!" -/
  | openInterp
  /-- `segmentTraverse`: "do not support PT_GNU_PROPERTY Segment" -/
  | gnuProperty
  /-- `load_elf_interp`: "elf_map failed" -/
  | elfMap
  /-- a local array is read or written past its end -/
  | overrun
  /-- more levels than the fuel of the model -/
  | deep
deriving DecidableEq

/-! ## ELF headers -/

structure Ehdr where
  type : Nat
  entry : Nat
  phoff : Nat
  phnum : Nat

structure Phdr where
  type : Nat
  offset : Nat
  vaddr : Nat
  filesz : Nat
  memsz : Nat

def EHDR_SIZE : Nat := 64
def PHDR_SIZE : Nat := 56

def Ehdr.read (b : Buf) : Ehdr :=
  { type := field b 16 2, entry := field b 24 8, phoff := field b 32 8, phnum := field b 56 2 }

def Phdr.read (b : Buf) (off : Nat) : Phdr :=
  { type := field b off 4, offset := field b (off + 8) 8, vaddr := field b (off + 16) 8,
    filesz := field b (off + 32) 8, memsz := field b (off + 40) 8 }

def PT_LOAD : Nat := 1
def PT_INTERP : Nat := 3
def PT_GNU_PROPERTY : Nat := 0x60000000 + 0x474e553
def ET_EXEC : Nat := 2
def ET_DYN : Nat := 3

def isScriptFormat (b : Buf) : Bool := b 0 = 0x23 ∧ b 1 = 0x21

def isElfFormat (b : Buf) : Bool := b 0 = 0x7f ∧ b 1 = 0x45 ∧ b 2 = 0x4c ∧ b 3 = 0x46

/-! ## Scripts -/

def MAX_ARG : Nat := 32
def BINPRM_BUF_SIZE : Nat := 128

def isBlank (c : UInt8) : Bool := c = 0x20 ∨ c = 0x09

/-- The first line of a script: the interpreter and its argument. The line ends at the first newline or
`NUL`; blanks at its end are cut off. -/
def scriptLine (head : List UInt8) : Except Stop (List UInt8 × List UInt8) :=
  let line := head.takeWhile fun c => c ≠ 0x0a ∧ c ≠ 0
  if line.length = head.length then .error .overrun
  else
    let cut := line.rdropWhile isBlank
    let buf := cut ++ List.replicate (line.length + 1 - cut.length) 0 ++ head.drop (line.length + 1)
    let cp := (buf.drop 2).dropWhile isBlank
    let interp_path := cp.takeWhile fun c => c ≠ 0 ∧ isBlank c = false
    let rest := (cp.drop interp_path.length).dropWhile isBlank
    let interp_arg := rest.takeWhile (· ≠ 0)
    if interp_arg.length = rest.length then .error .overrun else .ok (interp_path, interp_arg)

def BUSYBOX : List UInt8 := bytes ['/', 'b', 'u', 's', 'y', 'b', 'o', 'x']
def DOT_BUSYBOX : List UInt8 := bytes ['.', '/', 'b', 'u', 's', 'y', 'b', 'o', 'x']
def SH : List UInt8 := bytes ['s', 'h']
def BIN_SH : List UInt8 := bytes ['/', 'b', 'i', 'n', '/', 's', 'h']
def BIN_BUSYBOX : List UInt8 := bytes ['/', 'b', 'i', 'n', '/', 'b', 'u', 's', 'y', 'b', 'o', 'x']
def LIBC : List UInt8 := bytes ['/', 'l', 'i', 'b', 'c', '.', 's', 'o']

/-- `script_argv`, with room for its terminator. -/
def scriptArgv (argv : List (List UInt8)) : Except Stop (List (List UInt8)) :=
  if argv.length < MAX_ARG then .ok argv else .error .overrun

/-- `loadScript` up to its call of `exec`: the path and the arguments of that call. -/
def loadScript (env : Env) (level src : Nat) (argv : List (List UInt8)) :
    Except Stop (List UInt8 × List (List UInt8)) := do
  let head := fill (env.files.metaRead src 0 (BINPRM_BUF_SIZE - 1)) (env.locals level).script_head
  let (interp_path, interp_arg) ← scriptLine ((List.range BINPRM_BUF_SIZE).map head)
  if BIN_SH.isPrefixOf interp_path then
    let argv ← scriptArgv (DOT_BUSYBOX :: SH :: argv)
    return (BUSYBOX, argv)
  else
    let interp_path := if BIN_BUSYBOX.isPrefixOf interp_path then BUSYBOX else interp_path
    let argv ← scriptArgv (interp_path :: ((if interp_arg = [] then [] else [interp_arg]) ++ argv))
    return (interp_path, argv)

/-! ## Segments -/

def FAT32_MAX_PATH : Nat := 260

/-- The two segments `segmentTraverse` makes of a `PT_LOAD` header, each appended at the head. -/
def appendLoad (interpOffset : Nat) (ph : Phdr) (segs : List SegmentMap) : List SegmentMap :=
  let segs :=
    if 0 < ph.filesz then
      { loadAddr := u64 (ph.vaddr + interpOffset), len := u32 ph.filesz
        flag := PTE_EXECUTE_BIT ||| PTE_READ_BIT ||| PTE_WRITE_BIT, flag_mem := .inl rfl } :: segs
    else segs
  if ph.filesz < ph.memsz then
    { loadAddr := u64 (ph.vaddr + ph.filesz + interpOffset), len := u32 (ph.memsz - ph.filesz)
      flag := PTE_READ_BIT ||| PTE_WRITE_BIT ||| MAP_ZERO, flag_mem := .inr rfl } :: segs
  else segs

/-- What `segmentTraverse` has found so far. -/
structure Traverse where
  ph : Buf
  segs : List SegmentMap
  phdrAddr : Nat
  interpMeta : Option Nat

/-- One turn of `segmentTraverse`. `off` is an `int`. -/
def traverseStep (env : Env) (src : Nat) (elf : Ehdr) (interpOffset : Nat) (t : Traverse) (i : Nat) :
    Except Stop Traverse :=
  let buf := fill (env.files.metaRead src (u32 (elf.phoff + i * PHDR_SIZE)) PHDR_SIZE) t.ph
  let ph := Phdr.read buf 0
  let t := { t with ph := buf }
  if ph.type = PT_LOAD then
    let t := { t with segs := appendLoad interpOffset ph t.segs }
    if ph.offset ≤ elf.phoff ∧ elf.phoff < u64 (ph.offset + ph.filesz) then
      .ok { t with phdrAddr := u64 (elf.phoff - ph.offset + ph.vaddr + interpOffset) }
    else .ok t
  else if ph.type = PT_INTERP then
    if 4096 < ph.filesz ∨ ph.filesz < 2 then .error .interpPath
    else if FAT32_MAX_PATH < (env.files.metaRead src (u32 ph.offset) ph.filesz).length then .error .overrun
    else match env.files.metaName LIBC with
      | none => .error .openInterp
      | some interp => .ok { t with interpMeta := some interp }
  else if ph.type = PT_GNU_PROPERTY then .error .gnuProperty
  else .ok t

/-- `segmentTraverse`. -/
def segmentTraverse (env : Env) (level src : Nat) (elf : Ehdr) (interpOffset : Nat) : Except Stop Traverse :=
  (List.range elf.phnum).foldlM (traverseStep env src elf interpOffset)
    { ph := (env.locals level).ph, segs := [], phdrAddr := 0, interpMeta := none }

/-! ## The dynamic linker -/

/-- `totalLoadRange`. -/
def totalLoadRange (phdr : List Phdr) : Nat :=
  let loads := phdr.filter (·.type = PT_LOAD)
  let min_addr := loads.foldl (fun a ph => min a (alignDown ph.vaddr)) (2 ^ 64 - 1)
  let max_addr := loads.foldl (fun a ph => max a (u64 (ph.vaddr + ph.memsz))) 0
  if loads = [] then 0 else u64 (max_addr + 2 ^ 64 - min_addr)

/-- The address a `u64` result of `do_mmap` stands for. -/
def mapAddr (r : Int) : Nat := (r % 2 ^ 64).toNat

/-- `do_mmap` of a file: the pages, then the `fileread`. -/
def do_mmapFile (env : Env) (interp : Nat) (sp : Space) (start len : Nat) (perm : Pte) (off : Nat) (m : Mem) :
    Except Panic (Int × Space × Mem) := do
  let (r, sp, m) ← do_mmap env.fuel sp start len perm m
  if r = -1 then return (r, sp, m)
  let src := env.files.metaRead interp (u32 off) (u32 len)
  let m ← copyout sp.segmentMap env.page sp.pgdir (mapAddr r) src m
  return (if src.length < 2 ^ 31 then r else -1, sp, m)

/-- `elf_map`. -/
def elf_map (env : Env) (interp : Nat) (sp : Space) (addr : Nat) (ph : Phdr) (prot : Pte) (total_size : Nat)
    (m : Mem) : Except Panic (Nat × Space × Mem) := do
  let size := u64 (ph.filesz + ph.vaddr % PAGE_SIZE)
  let off := u64 (ph.offset + 2 ^ 64 - ph.vaddr % PAGE_SIZE)
  let addr := alignDown addr
  if size = 0 then return (addr, sp, m)
  if total_size = 0 then
    let (r, sp, m) ← do_mmapFile env interp sp addr size prot off m
    return (mapAddr r, sp, m)
  else
    let (r, sp, m) ← do_mmap env.fuel sp addr (alignUp total_size) prot m
    let (r, sp, m) ← do_mmapFile env interp sp (mapAddr r) size prot off m
    return (mapAddr r, sp, m)

/-- `make_prot`, whatever the flags. -/
def make_prot : Pte :=
  PTE_READ_BIT ||| PTE_WRITE_BIT ||| PTE_EXECUTE_BIT ||| PTE_USER_BIT ||| PTE_ACCESSED_BIT ||| PTE_DIRTY_BIT

def FIXED_PROT : Pte := PTE_READ_BIT ||| PTE_WRITE_BIT ||| PTE_USER_BIT ||| PTE_ACCESSED_BIT

/-- The locals of the loop of `load_elf_interp`, and what it edits. -/
structure Interp where
  load_addr : Nat
  load_addr_set : Bool
  total_size : Nat
  space : Space
  mem : Mem

/-- One turn of `load_elf_interp`, with `no_base` zero. -/
def interpStep (env : Env) (interp : Nat) (elf : Ehdr) (s : Interp) (ph : Phdr) : Except Stop Interp :=
  if ph.type ≠ PT_LOAD then .ok s
  else do
    let prot := if elf.type = ET_EXEC ∨ s.load_addr_set then FIXED_PROT else make_prot
    let (map_addr, space, mem) ← (elf_map env interp s.space (u64 (s.load_addr + ph.vaddr)) ph prot s.total_size
      s.mem).mapError .mem
    if map_addr = 2 ^ 64 - 1 then throw .elfMap
    if s.load_addr_set = false ∧ elf.type = ET_DYN then
      return { load_addr := u64 (map_addr + 2 ^ 64 - ph.vaddr % PAGE_SIZE), load_addr_set := true
               total_size := 0, space, mem }
    else return { s with total_size := 0, space, mem }

/-- `load_elf_interp`: the load address, `-22` when there is nothing to load. -/
def load_elf_interp (env : Env) (interp : Nat) (elf : Ehdr) (phdr : List Phdr) (sp : Space) (m : Mem) :
    Except Stop (Nat × Space × Mem) :=
  if totalLoadRange phdr = 0 then .ok (2 ^ 64 - 22, sp, m)
  else do
    let s ← phdr.foldlM (interpStep env interp elf)
      { load_addr := 0, load_addr_set := false, total_size := totalLoadRange phdr, space := sp, mem := m }
    return (s.load_addr, s.space, s.mem)

/-- What `exec` does for a program with an interpreter: its entry point and load address. The header table is
read into a page of `kmalloc`, which `pageAlloc` cleared. -/
def loadInterp (env : Env) (level interp : Nat) (sp : Space) (m : Mem) : Except Stop (Nat × Nat × Space × Mem) := do
  let elf := Ehdr.read (fill (env.files.metaRead interp 0 EHDR_SIZE) (env.locals level).interpElfHeader)
  let (page, m) ← (kmalloc (PHDR_SIZE * elf.phnum : Nat) m).mapError .mem
  let table := fill (env.files.metaRead interp (u32 elf.phoff) (PHDR_SIZE * elf.phnum)) fun _ => 0
  let phdr := (List.range elf.phnum).map fun i => Phdr.read table (i * PHDR_SIZE)
  let (addr, sp, m) ← load_elf_interp env interp elf phdr sp m
  let m ← (kfree page m).mapError .mem
  return (u64 (addr + elf.entry), addr, sp, m)

/-! ## The user stack -/

/-- `sp -= n; sp -= sp % 16;` -/
def pushSp (sp n : Nat) : Nat :=
  let sp := u64 (sp + 2 ^ 64 - n % 2 ^ 64)
  sp - sp % 16

/-- A `u64` as it lies in memory. -/
def wordBytes (x : Nat) : List UInt8 := (List.range 8).map fun i => UInt8.ofNat (x >>> (8 * i))

/-- The stack pointer, memory and the addresses of the strings pushed so far. -/
structure Stack where
  sp : Nat
  mem : Mem
  addrs : List Nat

/-- A block of bytes goes on the stack. -/
def push (env : Env) (space : Space) (room : Nat) (src : List UInt8) (s : Stack) : Except Panic Stack := do
  let sp := pushSp s.sp room
  let m ← copyout space.segmentMap env.page space.pgdir sp src s.mem
  return { sp, mem := m, addrs := s.addrs ++ [sp] }

/-- A string goes on the stack, with its terminator. -/
def pushString (env : Env) (space : Space) (s : Stack) (str : List UInt8) : Except Panic Stack :=
  push env space (str.length + 1) (str ++ [0]) s

def envVariable : List (List UInt8) :=
  [bytes ['L', 'D', '_', 'L', 'I', 'B', 'R', 'A', 'R', 'Y', '_', 'P', 'A', 'T', 'H', '=', '.'],
   bytes ['P', 'A', 'T', 'H', '=', '/'],
   bytes ['U', 'B', '_', 'B', 'I', 'N', 'D', 'I', 'R', '=', '.', '/']]

def k_rand_bytes : List UInt8 := (List.range 16).map UInt8.ofNat

/-- The auxiliary vector: pairs of an `AT_` id and its value, in the order of the source. -/
def auxv (phdrAddr phnum interpLoadAddr entry u_rand_bytes execfn : Nat) : List Nat :=
  [16, 0, 6, PAGE_SIZE, 3, phdrAddr, 4, PHDR_SIZE, 5, phnum, 7, interpLoadAddr, 9, entry, 11, 0, 12, 0, 13, 0,
   14, 0, 23, 0, 25, u_rand_bytes, 31, execfn, 0, 0]

def AT_VECTOR_SIZE : Nat := 46

/-- `initUserStack`: the stack pointer and memory. -/
def initUserStack (env : Env) (space : Space) (argv : List (List UInt8)) (phdrAddr : Nat) (elf : Ehdr)
    (interpLoadAddr interpOffset : Nat) (m : Mem) : Except Stop (Nat × Mem) := do
  if MAX_ARG + AT_VECTOR_SIZE < argv.length + 36 then throw .overrun
  let args ← (argv.foldlM (pushString env space) { sp := USER_STACK_TOP, mem := m, addrs := [] }).mapError .mem
  let envs ← (envVariable.foldlM (pushString env space) { args with addrs := [] }).mapError .mem
  let rand ← (push env space 32 k_rand_bytes envs).mapError .mem
  let ustack := [argv.length] ++ args.addrs ++ [0] ++ envs.addrs ++ [0] ++
    auxv phdrAddr elf.phnum interpLoadAddr (u64 (elf.entry + interpOffset)) rand.sp (args.addrs.headD 0)
  let src := ustack.flatMap wordBytes
  let top ← (push env space src.length src rand).mapError .mem
  return (top.sp, top.mem)

/-! ## `exec` -/

/-- `execAllocPgdir`: the old directory, and the state with a new one. -/
def execAllocPgdir (st : State) : Except Stop (Ppn × State) :=
  match allocPgdir st.mem with
  | none => .error .setupPage
  | some (pgdir, mem) => .ok (st.space.pgdir, { st with space := { st.space with pgdir }, mem })

/-- What a level of `exec` does before it looks at the file: a new directory, its first pages, no segments,
and empty heaps. -/
def replaceSpace (env : Env) (st : State) : Except Stop (Ppn × State) := do
  let (oldPageTable, st) ← execAllocPgdir st
  let mem ← (initUserMemory env.img st.space.pgdir st.mem).mapError .mem
  return (oldPageTable, { st with space := Space.fresh st.space.pgdir [], mem })

/-- The part of `exec` for an ELF file, up to `pgdirFree`. -/
def loadElf (env : Env) (level src : Nat) (argv : List (List UInt8)) (elf : Ehdr) (st : State) :
    Except Stop State := do
  let interpOffset := if elf.type = ET_DYN then 0x10000 else 0
  let t ← segmentTraverse env level src elf interpOffset
  let space := { st.space with segmentMap := t.segs }
  let (elfEntry, interpLoadAddr, space, mem) ← match t.interpMeta with
    | some interp => loadInterp env level interp space st.mem
    | none => .ok (u64 (elf.entry + interpOffset), 0, space, st.mem)
  let (sp, mem) ← initUserStack env space argv t.phdrAddr elf interpLoadAddr interpOffset mem
  return { space, mem, execFile := some src, clearChildTid := 0, a1 := sp, epc := elfEntry, sp }

/-- A call that returned: its value, the state, and the page directories it made and freed. -/
structure Result where
  ret : Int
  st : State
  made : List Ppn
  freed : List Ppn

/-- The header `exec` reads at a level. -/
def header (env : Env) (level src : Nat) : Buf :=
  fill (env.files.metaRead src 0 EHDR_SIZE) (env.locals level).elfHeader

/-- `exec`, with as many levels as the fuel. -/
def exec (env : Env) : Nat → List UInt8 → List (List UInt8) → State → Except Stop Result
  | 0, _, _, _ => .error .deep
  | level + 1, path, argv, st =>
    match env.files.metaName path with
    | none => .ok { ret := -1, st, made := [], freed := [] }
    | some src => do
      let (oldPageTable, st) ← replaceSpace env st
      let elfHeader := header env level src
      if isScriptFormat elfHeader then
        let (interp_path, script_argv) ← loadScript env level src argv
        let r ← exec env level interp_path script_argv st
        return { r with made := st.space.pgdir :: r.made }
      else if isElfFormat elfHeader = false then
        let r ← exec env level BUSYBOX [DOT_BUSYBOX, SH, path] st
        return { r with made := st.space.pgdir :: r.made }
      else
        let st ← loadElf env level src argv (Ehdr.read elfHeader) st
        let mem ← (pgdirFree oldPageTable st.mem).mapError .mem
        return { ret := 0, st := { st with mem }, made := [st.space.pgdir], freed := [oldPageTable] }

end Exaros.Exec
