/-
Wjos.Core.Paging — the page tables of `kernel/core/memory.c`, with the entry
formats of `kernel/include/cpu/mmu.h`.

`PhysMem` is physical memory byte by byte, with the page allocator and the
address of `kernel_page_dir`. The kernel sees the frames of the allocator at
their own addresses, so a page directory, a table and a frame are addresses
into that memory, and a store through a pointer is a store there. Addresses
are natural numbers below 2^32; where the code's sums may wrap, the `%` is
written.

A program stops the machine where an `ASSERT` fails or where the kernel
itself faults on a user page that is not there. `memory_alloc_page` and the
calls `addr_alloc_page(&paddr_alloc, 1)` are one thing here,
`paddrAllocPage`.
-/
import Wjos.Core.AddrAlloc
import Wjos.Lib.Memory
import Wjos.Lib.Prog
import Wjos.Tools.Klib

namespace Wjos

open Lib

/-- `MEMORY_TASK_BASE`. -/
def memoryTaskBase : Nat := 0x80000000

/-- Physical memory and the allocator over it. -/
structure PhysMem where
  paddrAlloc : AddrAlloc
  kernelPageDir : Nat
  mem : Nat → UInt8

/-! ## Entries -/

/-- `pde_index`. -/
def pdeIndex (vaddr : Nat) : Nat := vaddr / 4194304

/-- `pte_index`. -/
def pteIndex (vaddr : Nat) : Nat := vaddr / 4096 % 1024

/-- The bit `present` of an entry. -/
def entryPresent (v : Nat) : Bool := v % 2 = 1

/-- `pde_paddr` and `pte_paddr`: `phy_pt_addr << 12`. -/
def entryPaddr (v : Nat) : Nat := v / 4096 * 4096

/-- `get_pte_perm`. -/
def getPtePerm (v : Nat) : Nat := v % 1024

/-- `PTE_P | PTE_U | PTE_W`. -/
def ptePuw : Nat := 7

/-! ## The statements -/

/-- `addr_alloc_page(&paddr_alloc, 1)`. -/
def paddrAllocPage : Prog PhysMem Nat := fun m =>
  let r := addrAllocPage m.paddrAlloc 1
  some (r.2.toNat, { m with paddrAlloc := r.1 })

/-- `addr_free_page(&paddr_alloc, addr, page_count)`. -/
def paddrFreePage (addr pageCount : Nat) : Prog PhysMem Unit :=
  store fun m => { m with paddrAlloc := addrFreePage m.paddrAlloc (UInt32.ofNat addr) pageCount }

/-- The 32-bit word at `a`. -/
def loadWord (a : Nat) : Prog PhysMem Nat := look fun m => le32 m.mem a

/-- A 32-bit word stored at `a`. -/
def storeWord (a v : Nat) : Prog PhysMem Unit :=
  store fun m => { m with mem := put32 m.mem a v }

/-- `kernel_memset(dest, 0, size)`. -/
def kernelMemset (dest size : Nat) : Prog PhysMem Unit :=
  store fun m => { m with mem := copyTo m.mem dest size fun _ => 0 }

/-- `kernel_memcpy` between ranges that do not overlap. -/
def kernelMemcpy (dest src size : Nat) : Prog PhysMem Unit :=
  store fun m => { m with mem := copyTo m.mem dest size fun i => m.mem (src + i) }

/-- Bytes from elsewhere stored at `dest`. -/
def storeBytes (dest : Nat) (bytes : List UInt8) : Prog PhysMem Unit :=
  store fun m => { m with mem := copyTo m.mem dest bytes.length fun i => bytes.getD i 0 }

/-! ## Mapping -/

/-- `find_pte`: the address of the entry. -/
def findPte (pageDir vaddr : Nat) (alloc : Bool) : Prog PhysMem (Option Nat) := do
  let pde := pageDir + 4 * pdeIndex vaddr
  let v ← loadWord pde
  if entryPresent v then pure (some (entryPaddr v + 4 * pteIndex vaddr))
  else if alloc then do
    let pgAddr ← paddrAllocPage
    if pgAddr = 0 then pure none
    else do
      storeWord pde (pgAddr ||| 7)
      kernelMemset pgAddr 4096
      pure (some (pgAddr + 4 * pteIndex vaddr))
  else pure none

/-- `memory_create_map`. -/
def memoryCreateMap (pageDir : Nat) : (vaddr paddr count perm : Nat) → Prog PhysMem Int
  | _, _, 0, _ => pure 0
  | vaddr, paddr, count + 1, perm => do
    match ← findPte pageDir vaddr true with
    | none => pure (-1)
    | some pte => do
      let v ← loadWord pte
      check (!entryPresent v)
      storeWord pte (paddr ||| perm ||| 1)
      memoryCreateMap pageDir ((vaddr + 4096) % 4294967296) ((paddr + 4096) % 4294967296) count perm

/-- `memory_create_uvm`. The entries below `MEMORY_TASK_BASE` are copied as
one block. -/
def memoryCreateUvm : Prog PhysMem Nat := do
  let pageDir ← paddrAllocPage
  if pageDir = 0 then pure 0
  else do
    kernelMemset pageDir 4096
    let kernelPageDir ← look PhysMem.kernelPageDir
    kernelMemcpy pageDir kernelPageDir (4 * pdeIndex memoryTaskBase)
    pure pageDir

/-- The body of the loop of `memory_alloc_for_page_dir`. When no page is
left for a table it frees `i + 1` pages from `vaddr` on. -/
def allocForPageDir (pageDir vaddr perm i : Nat) : Prog PhysMem Bool := do
  let paddr ← paddrAllocPage
  if paddr = 0 then pure false
  else do
    let err ← memoryCreateMap pageDir ((vaddr + 4096 * i) % 4294967296) paddr 1 perm
    if err < 0 then do
      paddrFreePage vaddr (i + 1)
      pure false
    else pure true

/-- `memory_alloc_for_page_dir`. Every way out of the loop returns 0. -/
def memoryAllocForPageDir (pageDir vaddr size perm : Nat) : Prog PhysMem Int := do
  let _ ← forEach (allocForPageDir pageDir vaddr perm) (List.range (up2 size 4096 / 4096))
  pure 0

/-! ## Reading and releasing -/

/-- Where the processor finds the user address `vaddr`. -/
def translate (m : PhysMem) (pageDir vaddr : Nat) : Option Nat :=
  let pde := le32 m.mem (pageDir + 4 * pdeIndex vaddr)
  let pte := le32 m.mem (entryPaddr pde + 4 * pteIndex vaddr)
  if entryPresent pde && entryPresent pte then some (entryPaddr pte + vaddr % 4096) else none

/-- `memory_free_page`; `cr3` is the directory of the current task. -/
def memoryFreePage (cr3 addr : Nat) : Prog PhysMem Unit :=
  if addr < memoryTaskBase then paddrFreePage addr 1
  else do
    match ← findPte cr3 addr false with
    | none => check false
    | some pte => do
      let v ← loadWord pte
      check (entryPresent v)
      paddrFreePage (entryPaddr v) 1
      storeWord pte 0

/-- `kernel_memcpy(page, vaddr, MEM_PAGE_SIZE)` from a page of the current
task. -/
def copyUserPage (cr3 page vaddr : Nat) : Prog PhysMem Unit := do
  match ← look fun m => translate m cr3 vaddr with
  | none => check false
  | some src => kernelMemcpy page src 4096

/-- The body of the inner loop of `memory_copy_uvm`, for the entry at `pte`
which is entry `j` of table `i`; `false` is `goto copy_uvm_failed`. -/
def copyUvmPage (cr3 toPageDir i table j : Nat) : Prog PhysMem Bool := do
  let v ← loadWord (table + 4 * j)
  if !entryPresent v then pure true
  else do
    let page ← paddrAllocPage
    if page = 0 then pure false
    else do
      let vaddr := i * 4194304 + j * 4096
      let err ← memoryCreateMap toPageDir vaddr page 1 (getPtePerm v)
      if err < 0 then pure false
      else do
        copyUserPage cr3 page vaddr
        pure true

/-- The body of the outer loop of `memory_copy_uvm`. -/
def copyUvmTable (cr3 pageDir toPageDir i : Nat) : Prog PhysMem Bool := do
  let v ← loadWord (pageDir + 4 * i)
  if !entryPresent v then pure true
  else forEach (copyUvmPage cr3 toPageDir i (entryPaddr v)) (List.range 1024)

/-- The body of the inner loop of `memory_destroy_uvm`. -/
def destroyUvmPage (table j : Nat) : Prog PhysMem Bool := do
  let v ← loadWord (table + 4 * j)
  onlyIf (entryPresent v) (paddrFreePage (entryPaddr v) 1)
  pure true

/-- The body of the outer loop of `memory_destroy_uvm`. -/
def destroyUvmTable (pageDir i : Nat) : Prog PhysMem Bool := do
  let v ← loadWord (pageDir + 4 * i)
  onlyIf (entryPresent v) do
    let _ ← forEach (destroyUvmPage (entryPaddr v)) (List.range 1024)
    paddrFreePage (entryPaddr v) 1
  pure true

/-- The entries of a directory from `MEMORY_TASK_BASE` on. -/
def userPdes : List Nat := List.range' (pdeIndex memoryTaskBase) (1024 - pdeIndex memoryTaskBase)

/-- `memory_destroy_uvm`. -/
def memoryDestroyUvm (pageDir : Nat) : Prog PhysMem Unit := do
  let _ ← forEach (destroyUvmTable pageDir) userPdes
  paddrFreePage pageDir 1

/-- `memory_copy_uvm`; `cr3` is the directory of the current task, through
which the pages are read. -/
def memoryCopyUvm (cr3 pageDir : Nat) : Prog PhysMem Nat := do
  let toPageDir ← memoryCreateUvm
  if toPageDir = 0 then pure 0
  else do
    if ← forEach (copyUvmTable cr3 pageDir toPageDir) userPdes then pure toPageDir
    else do
      memoryDestroyUvm toPageDir
      pure 0

/-- `memory_get_paddr`. The entry need not be present. -/
def memoryGetPaddr (pageDir vaddr : Nat) : Prog PhysMem Nat := do
  match ← findPte pageDir vaddr false with
  | none => pure 0
  | some pte => do
    let v ← loadWord pte
    pure (entryPaddr v + vaddr % 4096)

/-- The loop of `memory_copy_uvm_data` over what is left of `bytes`; each
pass copies at least one of them. -/
def copyUvmData (pageDir : Nat) : (fuel toVaddr : Nat) → List UInt8 → Prog PhysMem Int
  | 0, _, _ => pure 0
  | fuel + 1, toVaddr, bytes =>
    if bytes = [] then pure 0
    else do
      let toPaddr ← memoryGetPaddr pageDir toVaddr
      if toPaddr = 0 then pure (-1)
      else do
        let currSize := min (4096 - toPaddr % 4096) bytes.length
        storeBytes toPaddr (bytes.take currSize)
        copyUvmData pageDir fuel ((toVaddr + currSize) % 4294967296) (bytes.drop currSize)

/-- `memory_copy_uvm_data`; `bytes` is what lies at `from`. -/
def memoryCopyUvmData (toVaddr pageDir : Nat) (bytes : List UInt8) : Prog PhysMem Int :=
  copyUvmData pageDir bytes.length toVaddr bytes

end Wjos
