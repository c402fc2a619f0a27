import Mathlib.Algebra.Group.Nat.Even
import Mathlib.Tactic.Common

/-!
# The memory layout

The constants of `include/mem_layout.h` and the address macros of `include/memory.h`. A `u64`
value is a natural number; every operation of the source that can leave the 64-bit range wraps
explicitly (`u64`).

`Image` is what the linker decides: how many pages the kernel image takes (`kernelEnd` is page
aligned, `linkscript/kernel.lds`) and which of them hold the page directory, the trampoline, the
trapframes and the signal trampoline. Pages are named by their physical page number, so a `Page *`
of the source and the physical address it manages are one value.
-/

namespace Exaros

/-- Reduction to 64 bits. -/
def u64 (x : Nat) : Nat := x % 2 ^ 64

def PAGE_SHIFT : Nat := 12
def PAGE_SIZE : Nat := 0x1000

def PHYSICAL_MEMORY_BASE : Nat := 0x80000000
def PHYSICAL_MEMORY_SIZE : Nat := 0x20000000
def PHYSICAL_MEMORY_END : Nat := PHYSICAL_MEMORY_BASE + PHYSICAL_MEMORY_SIZE
def VA_WIDTH : Nat := 38
def VA_MAX : Nat := 1 <<< VA_WIDTH

def TRAMPOLINE : Nat := VA_MAX - PAGE_SIZE
def TRAPFRAME : Nat := TRAMPOLINE - PAGE_SIZE
def SIGNAL_TRAMPOLINE : Nat := TRAPFRAME - PAGE_SIZE
def USER_STACK_TOP : Nat := SIGNAL_TRAMPOLINE
def USER_STACK_BOTTOM : Nat := USER_STACK_TOP - (1 <<< 32)

def USER_MMAP_HEAP_TOP : Nat := USER_STACK_BOTTOM
def USER_MMAP_HEAP_BOTTOM : Nat := USER_MMAP_HEAP_TOP - (1 <<< 32)
def USER_BRK_HEAP_TOP : Nat := USER_MMAP_HEAP_BOTTOM
def USER_BRK_HEAP_BOTTOM : Nat := USER_BRK_HEAP_TOP - (1 <<< 32)
def USER_SHM_HEAP_TOP : Nat := USER_BRK_HEAP_BOTTOM
def USER_SHM_HEAP_BOTTOM : Nat := USER_SHM_HEAP_TOP - (1 <<< 32)

def KERNEL_PROCESS_SP_TOP : Nat := 1 <<< 36
def FILE_SYSTEM_CLUSTER_BITMAP_BASE : Nat := KERNEL_PROCESS_SP_TOP - (1 <<< 30)
def KERNEL_PROCESS_SIGNAL_BASE : Nat := FILE_SYSTEM_CLUSTER_BITMAP_BASE - (1 <<< 30)
def SOCKET_BUFFER_BASE : Nat := KERNEL_PROCESS_SIGNAL_BASE - (1 <<< 30)
def SHM_BASE : Nat := SOCKET_BUFFER_BASE - (1 <<< 30)

/-- `ALIGN_DOWN(x, PAGE_SIZE)`. -/
def alignDown (x : Nat) : Nat := x - x % PAGE_SIZE

/-- `ALIGN_UP(x, PAGE_SIZE)`: `ALIGN_DOWN(x - 1) + PAGE_SIZE` in 64 bits, so `0` and the last page
of the address space both wrap. -/
def alignUp (x : Nat) : Nat := u64 (alignDown (u64 (x + (2 ^ 64 - 1))) + PAGE_SIZE)

/-- Slots of a page table page. -/
abbrev Idx := Fin 512

/-- `VAPPN(va, level)`. -/
def vaPpn (va level : Nat) : Idx :=
  ⟨(va >>> (PAGE_SHIFT + 9 * level)) % 512, Nat.mod_lt _ (by decide)⟩

/-- `VAOFFSET(va)`. -/
def vaOffset (va : Nat) : Nat := va % PAGE_SIZE

/-- A virtual page: its index at each of the three levels, top level first. -/
abbrev Vpn := Idx × Idx × Idx

/-- The page an address falls in, as the page walk sees it. -/
def vpn (va : Nat) : Vpn := (vaPpn va 2, vaPpn va 1, vaPpn va 0)

/-- The first address of a virtual page. -/
def vpnAddr (v : Vpn) : Nat := (v.1.val <<< 30) + (v.2.1.val <<< 21) + (v.2.2.val <<< 12)

/-- Addresses between the same page boundaries fall in one page. -/
theorem vpn_congr {x y : Nat} (h : x / PAGE_SIZE = y / PAGE_SIZE) : vpn x = vpn y := by
  have hindex : ∀ level, vaPpn x level = vaPpn y level := fun level => by
    unfold vaPpn
    congr 2
    rw [Nat.shiftRight_eq_div_pow, Nat.shiftRight_eq_div_pow, Nat.pow_add, ← Nat.div_div_eq_div_mul, ← Nat.div_div_eq_div_mul]
    exact congrArg (· / _) h
  unfold vpn
  rw [hindex 2, hindex 1, hindex 0]

/-- The first address of a page falls in it. -/
theorem vpn_vpnAddr (v : Vpn) : vpn (vpnAddr v) = v := by
  obtain ⟨⟨i, hi⟩, ⟨j, hj⟩, ⟨k, hk⟩⟩ := v
  simp only [vpn, vaPpn, vpnAddr, Prod.mk.injEq, Fin.mk.injEq, Nat.shiftRight_eq_div_pow,
    Nat.shiftLeft_eq, PAGE_SHIFT]
  omega

/-- The address of the page of a page-aligned address. -/
theorem vpnAddr_vpn {va : Nat} (h : va < 2 ^ 39) (hal : va % PAGE_SIZE = 0) : vpnAddr (vpn va) = va := by
  unfold PAGE_SIZE at hal
  simp only [vpn, vaPpn, vpnAddr, Nat.shiftRight_eq_div_pow, Nat.shiftLeft_eq, PAGE_SHIFT]
  omega

theorem vpnAddr_lt (v : Vpn) : vpnAddr v < 2 ^ 39 := by
  obtain ⟨⟨i, hi⟩, ⟨j, hj⟩, ⟨k, hk⟩⟩ := v
  simp only [vpnAddr, Nat.shiftLeft_eq]
  omega

theorem vpnAddr_mod (v : Vpn) : vpnAddr v % PAGE_SIZE = 0 := by
  obtain ⟨⟨i, hi⟩, ⟨j, hj⟩, ⟨k, hk⟩⟩ := v
  simp only [vpnAddr, Nat.shiftLeft_eq, PAGE_SIZE]
  omega

/-- Where it does not wrap, `ALIGN_UP` is the first page boundary from `x` on. -/
theorem alignUp_eq {x : Nat} (h : 0 < x) (h' : x ≤ 2 ^ 64 - PAGE_SIZE) :
    alignUp x % PAGE_SIZE = 0 ∧ x ≤ alignUp x ∧ alignUp x < x + PAGE_SIZE := by
  simp only [alignUp, alignDown, u64, PAGE_SIZE] at h' ⊢
  omega

/-- A multiple of the page size up to which `x` is rounded stays below every other above `x`. -/
theorem alignUp_le {x y : Nat} (hx : 0 < x) (hx' : x ≤ 2 ^ 64 - PAGE_SIZE) (hy : y % PAGE_SIZE = 0) (h : x ≤ y) : alignUp x ≤ y := by
  obtain ⟨hmod, hle, hlt⟩ := alignUp_eq hx hx'
  unfold PAGE_SIZE at *
  omega

/-- Within the last page it wraps. -/
theorem alignUp_wrap {x : Nat} (h : 2 ^ 64 - PAGE_SIZE < x) (h' : x < 2 ^ 64) : alignUp x = 0 := by
  simp only [alignUp, alignDown, u64, PAGE_SIZE] at h ⊢
  omega

/-- The same address put together with `|`. -/
theorem vpnAddr_eq_or (v : Vpn) :
    (v.1.val <<< 30) ||| (v.2.1.val <<< 21) ||| (v.2.2.val <<< 12) = vpnAddr v := by
  obtain ⟨⟨i, hi⟩, ⟨j, hj⟩, ⟨k, hk⟩⟩ := v
  have hlow : k <<< 12 < 2 ^ 21 := by rw [Nat.shiftLeft_eq]; omega
  have hmid : j <<< 21 + k <<< 12 < 2 ^ 30 := by rw [Nat.shiftLeft_eq, Nat.shiftLeft_eq]; omega
  simp only [vpnAddr]
  rw [Nat.or_assoc, ← Nat.shiftLeft_add_eq_or_of_lt hlow j, ← Nat.shiftLeft_add_eq_or_of_lt hmid i, Nat.add_assoc]

/-- Physical page numbers. -/
abbrev Ppn := Nat

/-- First managed page. -/
def BASE_PPN : Ppn := PHYSICAL_MEMORY_BASE >>> PAGE_SHIFT

/-- One past the last managed page. -/
def END_PPN : Ppn := PHYSICAL_MEMORY_END >>> PAGE_SHIFT

/-- What the linker fixes about the kernel image. -/
structure Image where
  /-- the page of `kernelEnd`: pages below it belong to the image -/
  kernelEnd : Ppn
  kernelPageDirectory : Ppn
  trampoline : Ppn
  trapframe : Ppn
  signalTrampoline : Ppn
  kernelEnd_le : kernelEnd ≤ END_PPN
  base_le : BASE_PPN ≤ kernelEnd
  kernelPageDirectory_mem : BASE_PPN ≤ kernelPageDirectory ∧ kernelPageDirectory < kernelEnd
  trampoline_mem : BASE_PPN ≤ trampoline ∧ trampoline < kernelEnd
  trapframe_mem : BASE_PPN ≤ trapframe ∧ trapframe < kernelEnd
  signalTrampoline_mem : BASE_PPN ≤ signalTrampoline ∧ signalTrampoline < kernelEnd
  pgdir_ne : kernelPageDirectory ≠ trampoline ∧ kernelPageDirectory ≠ trapframe ∧
    kernelPageDirectory ≠ signalTrampoline

/-- An image of eight pages, for concrete runs. -/
def Image.sample : Image where
  kernelEnd := 0x80008
  kernelPageDirectory := 0x80004
  trampoline := 0x80005
  trapframe := 0x80006
  signalTrampoline := 0x80007
  kernelEnd_le := by decide
  base_le := by decide
  kernelPageDirectory_mem := by decide
  trampoline_mem := by decide
  trapframe_mem := by decide
  signalTrampoline_mem := by decide
  pgdir_ne := by decide

/-- A page of the kernel image. -/
def Image.Kernel (img : Image) (p : Ppn) : Prop := BASE_PPN ≤ p ∧ p < img.kernelEnd

/-- A page above the kernel image: the pages `freePageInit` puts on the free list. -/
def Image.Above (img : Image) (p : Ppn) : Prop := img.kernelEnd ≤ p ∧ p < END_PPN

/-- A page that has an entry in `pages[]`. -/
def Managed (p : Ppn) : Prop := BASE_PPN ≤ p ∧ p < END_PPN

instance (img : Image) (p : Ppn) : Decidable (img.Kernel p) := inferInstanceAs (Decidable (_ ∧ _))
instance (img : Image) (p : Ppn) : Decidable (img.Above p) := inferInstanceAs (Decidable (_ ∧ _))
instance (p : Ppn) : Decidable (Managed p) := inferInstanceAs (Decidable (_ ∧ _))

theorem Image.Above.managed {img : Image} {p : Ppn} (h : img.Above p) : Managed p :=
  ⟨Nat.le_trans img.base_le h.1, h.2⟩

theorem Image.Kernel.managed {img : Image} {p : Ppn} (h : img.Kernel p) : Managed p :=
  ⟨h.1, Nat.lt_of_lt_of_le h.2 img.kernelEnd_le⟩

theorem Image.not_above_of_kernel {img : Image} {p : Ppn} (h : img.Kernel p) : ¬ img.Above p :=
  fun h' => absurd h.2 (Nat.not_lt.mpr h'.1)

/-- Every managed page is in the image or above it. -/
theorem Image.kernel_or_above (img : Image) {p : Ppn} (h : Managed p) : img.Kernel p ∨ img.Above p := by
  rcases Nat.lt_or_ge p img.kernelEnd with hp | hp
  · exact .inl ⟨h.1, hp⟩
  · exact .inr ⟨hp, h.2⟩

end Exaros
