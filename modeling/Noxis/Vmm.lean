import Noxis.Bytes
import Noxis.Pmm
import Noxis.Radix
/-!
# Vmm — four-level paging, address spaces and copy-on-write (`mm/virt/vmm.c`)

Physical memory is a function from a frame number and an offset in the frame to a byte.  The kernel reaches all of it
through the physmap, so `as_table(phys)` is the frame itself and a table entry is the 8-byte word at offset `8 * i`.  A
64-bit entry `w` is kept as the pair of the two halves the code takes it apart into: `frame` is `w & ~0xFFF` in pages and
`flags` is `w & 0xFFF`.  The tables live in the same memory as the user pages, so a stray store can reach either.

The TLB is taken to agree with the tables: every store to an entry of the loaded address space is followed by `invlpg`,
and loading CR3 flushes the rest.
-/
namespace Noxis

abbrev Flags := BitVec 12

def PAGE_PRESENT : Flags := 0x1
def PAGE_RW : Flags := 0x2
def PAGE_USER : Flags := 0x4
def PAGE_PS : Flags := 0x80
def PAGE_COW : Flags := 0x200

def hasFlag (fl m : Flags) : Bool := (fl &&& m) != 0

structure Pte where
  frame : Nat
  flags : Flags
deriving DecidableEq

def Pte.ofWord (w : Nat) : Pte := ⟨w / 4096, BitVec.ofNat 12 w⟩
def Pte.toWord (e : Pte) : Nat := e.frame * 4096 + e.flags.toNat

def Pte.present (e : Pte) : Bool := hasFlag e.flags PAGE_PRESENT
def Pte.rw (e : Pte) : Bool := hasFlag e.flags PAGE_RW
def Pte.user (e : Pte) : Bool := hasFlag e.flags PAGE_USER
def Pte.ps (e : Pte) : Bool := hasFlag e.flags PAGE_PS
def Pte.cow (e : Pte) : Bool := hasFlag e.flags PAGE_COW

/-- The memory the kernel manages: physical memory, the frame allocator and `g_kernel_pml4`. -/
structure Vm where
  mem : Nat → Nat → UInt8
  pmm : Pmm
  kpml4 : Nat

def Vm.entry (s : Vm) (t i : Nat) : Pte := Pte.ofWord (leRead (s.mem t) (8 * i) 8)

def Vm.setFrame (s : Vm) (t : Nat) (b : Nat → UInt8) : Vm := { s with mem := fun f => if f = t then b else s.mem f }

def Vm.setEntry (s : Vm) (t i : Nat) (e : Pte) : Vm := s.setFrame t (leWrite (s.mem t) (8 * i) 8 e.toWord)

def Vm.setByte (s : Vm) (f o : Nat) (b : UInt8) : Vm := s.setFrame f (fun x => if x = o then b else s.mem f x)

def Vm.zeroTable (s : Vm) (t : Nat) : Vm := s.setFrame t (fun _ => 0)

/-- `for (b = 0; b < 4096; b++) dst[b] = src[b]`. -/
def Vm.copyFrame (s : Vm) (dst src : Nat) : Vm := s.setFrame dst (s.mem src)

def Vm.allocFrame (s : Vm) : Nat × Vm := ((pmmAllocFrame s.pmm).1, { s with pmm := (pmmAllocFrame s.pmm).2 })

def Vm.freeFrame (s : Vm) (f : Nat) : Vm := { s with pmm := pmmFreeFrame s.pmm f }

def Vm.addref (s : Vm) (f : Nat) : Vm := { s with pmm := pmmAddref s.pmm f }

/-! ## The table indices of a virtual address -/

def ix4 (va : Nat) : Nat := va / 2 ^ 39 % 512
def ix3 (va : Nat) : Nat := va / 2 ^ 30 % 512
def ix2 (va : Nat) : Nat := va / 2 ^ 21 % 512
def ix1 (va : Nat) : Nat := va / 2 ^ 12 % 512

def PML4_PHYSMAP : Nat := 256
def PML4_KERNEL : Nat := 511
def ENTRIES : Nat := 512

/-! ## Building and mapping -/

/-- One level of `vmm_map_page_into`: entry `i` of table `t` leads to a table afterwards, a fresh zeroed one when it was
not present; `u` is the user bit the new mapping asks for. -/
def ensureTable (s : Vm) (t i : Nat) (u : Flags) : Vm × Bool :=
  let e := s.entry t i
  if e.present then (s.setEntry t i { e with flags := e.flags ||| u }, true)
  else
    let r := s.allocFrame
    if r.1 = 0 then (r.2, false)
    else ((r.2.zeroTable r.1).setEntry t i ⟨r.1, PAGE_PRESENT ||| PAGE_RW ||| u⟩, true)

/-- The three levels of `vmm_map_page_into`, down to the page table; `none` when a table cannot be allocated. -/
def ensureTables (u : Flags) : List Nat → Vm → Nat → Vm × Option Nat
  | [], s, t => (s, some t)
  | i :: p, s, t =>
    match ensureTable s t i u with
    | (s, false) => (s, none)
    | (s, true) => ensureTables u p s (s.entry t i).frame

/-- `vmm_map_page_into`; `true` is the source's 0 and `false` its -1. -/
def vmmMapPageInto (s : Vm) (pml4 va pa : Nat) (flags : Flags) : Vm × Bool :=
  match ensureTables (flags &&& PAGE_USER) [ix4 va, ix3 va, ix2 va] s pml4 with
  | (s, none) => (s, false)
  | (s, some pt) => (s.setEntry pt (ix1 va) ⟨pa, flags ||| PAGE_PRESENT⟩, true)

/-- `vmm_create_address_space`: an empty user half, the physmap and kernel entries shared; 0 on failure. -/
def vmmCreateAddressSpace (s : Vm) : Nat × Vm :=
  let r := s.allocFrame
  if r.1 = 0 then (0, r.2)
  else
    let s := r.2.zeroTable r.1
    let s := s.setEntry r.1 PML4_PHYSMAP (s.entry s.kpml4 PML4_PHYSMAP)
    (r.1, s.setEntry r.1 PML4_KERNEL (s.entry s.kpml4 PML4_KERNEL))

/-- The first `n` entries of `t` map the first `n` 2 MB pages of RAM. -/
def Vm.mapLarge (s : Vm) (t n : Nat) : Vm :=
  (List.range n).foldl (fun s i => s.setEntry t i ⟨i * 512, PAGE_PRESENT ||| PAGE_RW ||| PAGE_PS⟩) s

def Vm.newTable (s : Vm) : Nat × Vm := (s.allocFrame.1, s.allocFrame.2.zeroTable s.allocFrame.1)

/-- A PDPT under entry `i` of `pml4` with one PD that maps `n` 2 MB pages: the low identity map and the physmap. -/
def Vm.mapWindow (s : Vm) (pml4 i n : Nat) : Vm :=
  let pdpt := s.newTable
  let s := pdpt.2.setEntry pml4 i ⟨pdpt.1, PAGE_PRESENT ||| PAGE_RW⟩
  let pd := s.newTable
  (pd.2.setEntry pdpt.1 0 ⟨pd.1, PAGE_PRESENT ||| PAGE_RW⟩).mapLarge pd.1 n

/-- The higher half of the boot sector's PML4 (frame 1) is taken over, and `pml4` becomes `g_kernel_pml4`. -/
def Vm.adopt (s : Vm) (pml4 : Nat) : Vm :=
  { s.setEntry pml4 PML4_KERNEL (s.entry 1 PML4_KERNEL) with kpml4 := pml4 }

/-- `vmm_init` over the memory the boot sector left. -/
def vmmInit (s : Vm) : Vm :=
  ((s.newTable.2.mapWindow s.newTable.1 0 64).mapWindow s.newTable.1 PML4_PHYSMAP 512).adopt s.newTable.1

/-! ## Walking the user half -/

/-- The three nested loops of `vmm_copy_user_space` and `vmm_cow_user_space` over the entries below `PML4[0]` of `src`;
`body` gets the page's virtual address, its page table and its index there, and answers `false` to return -1. -/
def forUserLeaves (body : Nat → Nat → Nat → Vm → Vm × Bool) (s : Vm) (src : Nat) : Vm × Bool :=
  let e4 := s.entry src 0
  if !e4.present then (s, true)
  else
    forUpTo (fun i3 s =>
      let e3 := s.entry e4.frame i3
      if !e3.present then (s, true)
      else
        forUpTo (fun i2 s =>
          let e2 := s.entry e3.frame i2
          if !e2.present || e2.ps then (s, true)
          else forUpTo (fun i1 s => body (i3 * 2 ^ 30 + i2 * 2 ^ 21 + i1 * 2 ^ 12) e2.frame i1 s) ENTRIES s) ENTRIES s)
      ENTRIES s

def copyLeaf (dst va pt i1 : Nat) (s : Vm) : Vm × Bool :=
  let e := s.entry pt i1
  if !e.present then (s, true)
  else
    let r := s.allocFrame
    if r.1 = 0 then (r.2, false)
    -- the source drops the result of this vmm_map_page_into
    else ((vmmMapPageInto (r.2.copyFrame r.1 e.frame) dst va r.1 e.flags).1, true)

def vmmCopyUserSpace (s : Vm) (dst src : Nat) : Vm × Bool := forUserLeaves (copyLeaf dst) s src

/-- The flags of a shared page: read-only, marked copy-on-write. -/
def cowFlags (fl : Flags) : Flags := (fl &&& ~~~PAGE_RW) ||| PAGE_COW

def cowLeaf (dst va pt i1 : Nat) (s : Vm) : Vm × Bool :=
  let e := s.entry pt i1
  if !e.present then (s, true)
  else
    let flags := cowFlags e.flags
    let s := s.setEntry pt i1 ⟨e.frame, flags⟩
    match vmmMapPageInto s dst va e.frame (flags &&& ~~~PAGE_PRESENT) with
    | (s, false) => (s, false)
    | (s, true) => (s.addref e.frame, true)

def vmmCowUserSpace (s : Vm) (dst src : Nat) : Vm × Bool := forUserLeaves (cowLeaf dst) s src

/-! ## Freeing

The loops of `vmm_free_user_space` read the tables and change the allocator only. -/

def freePt (s : Vm) (pt : Nat) (p : Pmm) : Pmm :=
  (List.range ENTRIES).foldl (fun p i1 => if (s.entry pt i1).present then pmmFreeFrame p (s.entry pt i1).frame else p) p

def freePd (s : Vm) (pd : Nat) (p : Pmm) : Pmm :=
  (List.range ENTRIES).foldl (fun p i2 =>
    let e := s.entry pd i2
    if !e.present || e.ps then p else pmmFreeFrame (freePt s e.frame p) e.frame) p

def freePdpt (s : Vm) (pdpt : Nat) (p : Pmm) : Pmm :=
  (List.range ENTRIES).foldl (fun p i3 =>
    let e := s.entry pdpt i3
    if !e.present then p else pmmFreeFrame (freePd s e.frame p) e.frame) p

def vmmFreeUserSpace (s : Vm) (pml4 : Nat) : Vm :=
  if pml4 = 0 ∨ pml4 = s.kpml4 then s
  else
    let e := s.entry pml4 0
    let p := if e.present then pmmFreeFrame (freePdpt s e.frame s.pmm) e.frame else s.pmm
    { s with pmm := pmmFreeFrame p pml4 }

/-! ## The page-fault handler -/

def USTACK_BASE : Nat := 0x50000000
def USTACK_PAGES : Nat := 64
def USTACK_LIMIT : Nat := USTACK_BASE - (USTACK_PAGES - 1) * 0x1000

/-- `vmm_page_fault_handler` at `CR2 = va`, `CR3 = cr3` and the error code's P and W bits, for a current process whose
`stack_low` is `stackLow`.  It answers the new `stack_low`, or `none` on the panic path. -/
def vmmPageFaultHandler (s : Vm) (cr3 va : Nat) (p w : Bool) (stackLow : Nat) : Vm × Option Nat :=
  let pageVa := va / 4096 * 4096
  if !p && decide (cr3 ≠ 0) && decide (cr3 ≠ s.kpml4) && decide (stackLow > USTACK_LIMIT) && decide (pageVa < stackLow)
      && decide (pageVa ≥ USTACK_LIMIT) then
    let r := s.allocFrame
    if r.1 = 0 then (r.2, none)
    else ((vmmMapPageInto (r.2.setFrame r.1 (fun _ => 0)) cr3 pageVa r.1 (PAGE_RW ||| PAGE_USER)).1, some pageVa)
  else if p && w && decide (cr3 ≠ 0) && decide (cr3 ≠ s.kpml4) then
    let e4 := s.entry cr3 (ix4 va)
    if !e4.present then (s, none) else
    let e3 := s.entry e4.frame (ix3 va)
    if !e3.present then (s, none) else
    let e2 := s.entry e3.frame (ix2 va)
    if !e2.present || e2.ps then (s, none) else
    let pt := e2.frame
    let pte := s.entry pt (ix1 va)
    if !pte.present || !pte.cow then (s, none) else
    let flags := pte.flags &&& ~~~PAGE_COW
    if pmmRefcount s.pmm pte.frame = 1 then
      -- sole owner: writable in place
      (s.setEntry pt (ix1 va) ⟨pte.frame, flags ||| PAGE_RW⟩, some stackLow)
    else
      let r := s.allocFrame
      if r.1 = 0 then (r.2, none)
      else
        let s := (r.2.copyFrame r.1 pte.frame).freeFrame pte.frame
        (s.setEntry pt (ix1 va) ⟨r.1, flags ||| PAGE_RW⟩, some stackLow)
  else (s, none)

/-! ## User-mode accesses -/

inductive Translation where
  | ok (frame : Nat)
  | fault (p : Bool)

/-- The processor's walk; `allowed` is asked of the entry of every level. -/
def walk (allowed : Pte → Bool) (s : Vm) (cr3 va : Nat) : Translation :=
  let e4 := s.entry cr3 (ix4 va)
  if !e4.present then .fault false else
  let e3 := s.entry e4.frame (ix3 va)
  if !e3.present then .fault false else
  let e2 := s.entry e3.frame (ix2 va)
  if !e2.present then .fault false else
  if e2.ps then
    if allowed e4 && allowed e3 && allowed e2 then .ok (e2.frame + ix1 va) else .fault true
  else
  let e1 := s.entry e2.frame (ix1 va)
  if !e1.present then .fault false else
  if allowed e4 && allowed e3 && allowed e2 && allowed e1 then .ok e1.frame else .fault true

/-- A user-mode access needs every level user, and writable for a write. -/
def hwTranslate (s : Vm) (cr3 va : Nat) (write : Bool) : Translation :=
  walk (fun e => e.user && (!write || e.rw)) s cr3 va

/-- A user-mode access: translate, and translate again after a fault the handler returns from.  It answers the new
`stack_low` and the frame accessed, or `none` when the kernel has halted.  Outside `PML4[0]` the entries are empty or
supervisor-only, so the fault is fatal there. -/
def userAccess (s : Vm) (cr3 va : Nat) (write : Bool) (stackLow : Nat) : Vm × Option (Nat × Nat) :=
  if va < 2 ^ 39 then
    match hwTranslate s cr3 va write with
    | .ok f => (s, some (stackLow, f))
    | .fault p =>
      match vmmPageFaultHandler s cr3 va p write stackLow with
      | (s, none) => (s, none)
      | (s, some low) =>
        match hwTranslate s cr3 va write with
        | .ok f => (s, some (low, f))
        | .fault _ => (s, none)
  else (s, none)

end Noxis
