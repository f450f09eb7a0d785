import Noxis.Sharers
import Noxis.Parents
/-!
# Atomic — what a failed fork, exec or brk leaves behind

The three calls take frames one after the other and return in the middle when one is missing, without giving back what they
have taken: the PML4 and the tables of the address space under construction, the pages already mapped, the references and
read-only marks of the pages already shared.  Nothing on the way frees a frame (`AllocClosed`), so a failed call is atomic
exactly when its first allocation failed, or when it was refused before that (`failed_call_unchanged_iff`).
-/
namespace Noxis

open List Bool

/-! ## The calls, with the kernel heap -/

/-- The processes with the memory manager, and the kernel heap. -/
structure Os where
  k : Kernel
  heap : Kheap.Pool

def userHeapMax : Nat := 0x40000000

def procAllocHeap (h : Kheap.Pool) : Kheap.Pool × Nat :=
  let p := h.step (.kmalloc procBytes)
  if p.2 = 0 then (p.1, 0) else
  let stack := p.1.step (.kmalloc procKstackSize)
  if stack.2 = 0 then ((stack.1.step (.kfree p.2)).1, 0) else (stack.1, p.2)

/-- `sys_fork` calls `proc_alloc` only once the address space is there. -/
def Os.sysFork (m : Os) (cur : Process) : Os × Ret :=
  let r := vmmCreateAddressSpace m.k.vm
  if r.1 = 0 ∨ (vmmCowUserSpace r.2 r.1 cur.pml4).2 = false then
    (⟨(Noxis.sysFork m.k cur 0).1, m.heap⟩, (Noxis.sysFork m.k cur 0).2)
  else
    let a := procAllocHeap m.heap
    (⟨(Noxis.sysFork m.k cur a.2).1, a.1⟩, (Noxis.sysFork m.k cur a.2).2)

/-- What `vfs_lookup` does for `sys_exec`: it finds nothing, a file of the cache, or a file on disk, which it loads into a
buffer of `n` bytes that stays in the cache. -/
inductive Lookup where
  | missing
  | cached (img : Image)
  | loaded (n : Nat) (img : Image)

def Os.sysExec (m : Os) (i : Nat) (cur : Process) (argv : List (List UInt8)) : Lookup → Os × Ret
  | .missing => (⟨(Noxis.sysExec m.k i cur none argv).1, m.heap⟩, (Noxis.sysExec m.k i cur none argv).2)
  | .cached img => (⟨(Noxis.sysExec m.k i cur (some img) argv).1, m.heap⟩, (Noxis.sysExec m.k i cur (some img) argv).2)
  | .loaded n img =>
    let b := m.heap.step (.kmalloc n)
    let prog := if b.2 = 0 then none else some img
    (⟨(Noxis.sysExec m.k i cur prog argv).1, b.1⟩, (Noxis.sysExec m.k i cur prog argv).2)

def brkPage (pml4 va : Nat) (s : Vm) : Vm × Bool :=
  let r := s.allocFrame
  if r.1 = 0 then (r.2, false)
  -- the source drops the result of this vmm_map_page_into
  else ((vmmMapPageInto (r.2.setFrame r.1 (fun _ => 0)) pml4 va r.1 (PAGE_RW ||| PAGE_USER)).1, true)

def pageUp (x : Nat) : Nat := (x + 0xFFF) % 2 ^ 64 / 4096 * 4096

def sysBrk (k : Kernel) (i : Nat) (cur : Process) (addr : Nat) : Kernel × Ret :=
  if addr = 0 ∨ addr ≤ cur.brk ∨ userHeapMax ≤ addr then (k, .value cur.brk) else
  match forUpTo (fun j s => brkPage cur.pml4 (pageUp cur.brk + 4096 * j) s) ((pageUp addr - pageUp cur.brk) / 4096) k.vm with
  | (s, false) => ({ k with vm := s }, .value cur.brk)
  | (s, true) => ({ k with vm := s, procs := k.procs.set i { cur with brk := addr } }, .value addr)

inductive Req where
  | fork
  | exec (prog : Lookup) (argv : List (List UInt8))
  | brk (addr : Nat)

def Os.call (m : Os) (i : Nat) (cur : Process) : Req → Os × Ret
  | .fork => m.sysFork cur
  | .exec prog argv => m.sysExec i cur argv prog
  | .brk addr => (⟨(sysBrk m.k i cur addr).1, m.heap⟩, (sysBrk m.k i cur addr).2)

def Req.Failed (cur : Process) (ret : Ret) : Req → Prop
  | .fork => ret = .value (-1)
  | .exec _ _ => ret = .value (-1)
  | .brk addr => cur.brk < addr ∧ ret = .value cur.brk

/-- What the caller and the allocators can tell is as before: the free frames and the reference counts, the live set of the
heap, the caller's structure, its translations and the bytes behind them. -/
structure Same (i : Nat) (cur : Process) (m m' : Os) : Prop where
  free : m'.k.vm.pmm.free = m.k.vm.pmm.free
  refs : ∀ f, m'.k.vm.pmm.refcount f = m.k.vm.pmm.refcount f
  live : ∀ p, p ∈ m'.heap.live ↔ p ∈ m.heap.live
  proc : m'.k.procs[i]? = m.k.procs[i]?
  pages : ∀ v, m'.k.vm.leaf cur.pml4 v = m.k.vm.leaf cur.pml4 v
  bytes : ∀ v e, m.k.vm.leaf cur.pml4 v = some e → m'.k.vm.mem e.frame = m.k.vm.mem e.frame

/-- The call takes nothing: no frame is free when it starts, or it is refused before it asks for one. -/
def Untaken (m : Os) : Req → Prop
  | .fork => m.k.vm.pmm.free = 0
  | .exec .missing _ => True
  | .exec (.cached _) _ => m.k.vm.pmm.free = 0
  | .exec (.loaded n _) _ => (m.heap.step (.kmalloc n)).2 = 0
  | .brk addr => userHeapMax ≤ addr ∨ m.k.vm.pmm.free = 0

/-! ## What allocation keeps -/

structure AllocClosed (P : Pmm → Prop) : Prop where
  alloc : ∀ p, P p → P (pmmAllocFrame p).2
  addref : ∀ p f, P p → P (pmmAddref p f)

namespace AllocClosed

variable {P : Pmm → Prop} {s : Vm} {a : Nat}

section
variable (hP : AllocClosed P)
include hP

theorem create (h : P s.pmm) : P (vmmCreateAddressSpace s).2.pmm := by
  unfold vmmCreateAddressSpace
  dsimp only
  split <;> exact hP.alloc _ h

theorem table (h : P s.pmm) (t i : Nat) (u : Flags) : P (ensureTable s t i u).1.pmm := by
  unfold ensureTable
  dsimp only
  split
  · exact h
  · split <;> exact hP.alloc _ h

theorem tables (u : Flags) : ∀ (p : List Nat) (s : Vm) (t : Nat), P s.pmm → P (ensureTables u p s t).1.pmm
  | [], _, _, h => h
  | i :: p, s, t, h => by
    have h1 := hP.table h t i u
    unfold ensureTables
    split
    · rename_i s1 hs
      rw [hs] at h1
      exact h1
    · rename_i s1 hs
      rw [hs] at h1
      exact tables u p s1 _ h1

theorem map (h : P s.pmm) (va pa : Nat) (fl : Flags) : P (vmmMapPageInto s a va pa fl).1.pmm := by
  have h1 := hP.tables (fl &&& PAGE_USER) [ix4 va, ix3 va, ix2 va] s a h
  unfold vmmMapPageInto
  split
  · rename_i s1 hs
    rw [hs] at h1
    exact h1
  · rename_i s1 pt hs
    rw [hs] at h1
    exact h1

theorem cow (h : P s.pmm) (d : Nat) : P (vmmCowUserSpace s d a).1.pmm := by
  refine forUserLeaves_keeps (cowLeaf d) (fun s => P s.pmm) (fun va pt i s hs => ?_) s a h
  unfold cowLeaf
  dsimp only
  split
  · exact hs
  have h1 := hP.map (s := s.setEntry pt i ⟨(s.entry pt i).frame, cowFlags (s.entry pt i).flags⟩) (a := d) hs va
    (s.entry pt i).frame (cowFlags (s.entry pt i).flags &&& ~~~PAGE_PRESENT)
  split
  · rename_i s1 hm
    rw [hm] at h1
    exact h1
  · rename_i s1 hm
    rw [hm] at h1
    exact hP.addref _ _ h1

theorem mapNew (h : P s.pmm) (va : Nat) : P (mapNew s a va).1.pmm := by
  unfold Noxis.mapNew
  dsimp only
  split
  · exact hP.alloc _ h
  · exact hP.map (s := s.allocFrame.2) (hP.alloc _ h) _ _ _

theorem elf (h : P s.pmm) (img : Image) : P (elf64LoadInto s a img).1.pmm :=
  elf64LoadInto_keeps (P := fun s => P s.pmm) (fun _ _ _ hs => loadSegment_keeps (P := fun s => P s.pmm) img
    (fun _ _ _ _ hs => hP.mapNew hs _) (fun _ _ _ _ _ _ hs => hs) hs) h

theorem brkPage (h : P s.pmm) (va : Nat) : P (brkPage a va s).1.pmm := by
  unfold Noxis.brkPage
  dsimp only
  split
  · exact hP.alloc _ h
  · exact hP.map (s := s.allocFrame.2.setFrame s.allocFrame.1 (fun _ => 0)) (hP.alloc _ h) _ _ _

end

end AllocClosed

/-! ## The free count -/

structure Tallied (p : Pmm) : Prop where
  zero : p.used 0 = true
  count : p.free = freeFrames p

theorem Tallied.alloc_none {p : Pmm} (h : Tallied p) (h0 : p.free = 0) : pmmAllocFrame p = (0, { p with failed := true }) := by
  rcases pmmAllocFrame_cases p with ⟨f, hf, hu, -⟩ | ⟨-, heq⟩
  · have hall := freeFrames_eq_zero.1 (h.count ▸ h0) f hf
    rw [hu] at hall
    cases hall
  · exact heq

theorem Tallied.alloc_some {p : Pmm} (h : Tallied p) (h0 : p.free ≠ 0) :
    ∃ f ≠ 0, f < p.nframes ∧ p.used f = false ∧ (pmmAllocFrame p).1 = f ∧ (pmmAllocFrame p).2.used = (p.markUsed f).used ∧
      (pmmAllocFrame p).2.nframes = p.nframes ∧ (pmmAllocFrame p).2.free = p.free - 1 := by
  rcases pmmAllocFrame_cases p with ⟨f, hlt, hu, heq⟩ | ⟨hall, -⟩
  · have hf : f ≠ 0 := by
      rintro rfl
      rw [h.zero] at hu
      cases hu
    rw [heq]
    exact ⟨f, hf, hlt, hu, rfl, rfl, rfl, rfl⟩
  · exact absurd (h.count.trans (freeFrames_eq_zero.2 hall)) h0

theorem tallied_closed : AllocClosed Tallied where
  alloc := fun p h => by
    by_cases h0 : p.free = 0
    · rw [h.alloc_none h0]
      exact ⟨h.zero, h.count⟩
    obtain ⟨f, hf0, hlt, hu, -, hused, hn, hfree⟩ := h.alloc_some h0
    refine ⟨?_, ?_⟩
    · rw [hused]
      simp only [Pmm.markUsed, if_neg (Ne.symm hf0)]
      exact h.zero
    · have hup := freeFrames_update p (pmmAllocFrame p).2 hlt hn (fun g hg => by rw [hused]; simp only [Pmm.markUsed, if_neg hg])
      rw [hu, hused] at hup
      simp only [Pmm.markUsed, if_true, false_eq_true, if_false] at hup
      have := h.count
      omega
  addref := fun p f h => by
    refine ⟨by rw [pmmAddref_used]; exact h.zero, ?_⟩
    have hfree : (pmmAddref p f).free = p.free := by
      unfold pmmAddref
      split <;> rfl
    rw [hfree, h.count, freeFrames_addref]

theorem free_le_closed (n : Nat) : AllocClosed (fun p => p.free ≤ n) where
  alloc := fun p h => by
    unfold pmmAllocFrame
    split
    · exact (Nat.sub_le _ _).trans h
    · exact h
  addref := fun p f h => by
    unfold pmmAddref
    split <;> exact h

theorem Tallied.create {s : Vm} (h : Tallied s.pmm) (h0 : s.pmm.free ≠ 0) :
    (vmmCreateAddressSpace s).1 ≠ 0 ∧ (vmmCreateAddressSpace s).2.pmm.free < s.pmm.free := by
  obtain ⟨f, hf0, -, -, hf, -, -, hfree⟩ := h.alloc_some h0
  have hne : s.allocFrame.1 ≠ 0 := fun hx => hf0 (hf.symm.trans hx)
  unfold vmmCreateAddressSpace
  dsimp only
  rw [if_neg hne]
  refine ⟨hne, ?_⟩
  have hlt : (pmmAllocFrame s.pmm).2.free < s.pmm.free := by omega
  exact hlt

theorem Tallied.create_none {s : Vm} (h : Tallied s.pmm) (h0 : s.pmm.free = 0) :
    vmmCreateAddressSpace s = (0, { s with pmm := { s.pmm with failed := true } }) := by
  have hnone := h.alloc_none h0
  have hzero : s.allocFrame.1 = 0 := congrArg Prod.fst hnone
  unfold vmmCreateAddressSpace
  dsimp only
  rw [if_pos hzero, Vm.allocFrame, hnone]

/-! ## The three calls -/

section Calls

variable {m : Os} {i : Nat} {cur : Process}

theorem same_failed (m : Os) (i : Nat) (cur : Process) : Same i cur m
    ⟨{ m.k with vm := { m.k.vm with pmm := { m.k.vm.pmm with failed := true } } }, m.heap⟩ :=
  ⟨rfl, fun _ => rfl, fun _ => Iff.rfl, rfl, fun _ => rfl, fun _ _ _ => rfl⟩

theorem sysFork_free (k : Kernel) (cur : Process) (addr : Nat) :
    (Noxis.sysFork k cur addr).1.vm.pmm.free ≤ (vmmCreateAddressSpace k.vm).2.pmm.free := by
  set r := vmmCreateAddressSpace k.vm
  have hcow := (free_le_closed r.2.pmm.free).cow (s := r.2)
    (a := cur.pml4) (le_refl _) r.1
  unfold Noxis.sysFork
  dsimp only
  split
  · exact le_refl _
  split
  · rename_i s hs
    rw [hs] at hcow
    exact hcow
  · rename_i s hs
    rw [hs] at hcow
    split <;> exact hcow

theorem sysExec_free (k : Kernel) (i : Nat) (cur : Process) (img : Image) (argv : List (List UInt8))
    (hfail : (Noxis.sysExec k i cur (some img) argv).2 = .value (-1)) :
    (Noxis.sysExec k i cur (some img) argv).1.vm.pmm.free ≤ (vmmCreateAddressSpace k.vm).2.pmm.free := by
  set r := vmmCreateAddressSpace k.vm
  have hle := free_le_closed r.2.pmm.free
  have helf := hle.elf (s := r.2) (a := r.1) (le_refl _) img
  have hstk := hle.mapNew (a := r.1) helf USTACK_BASE
  unfold Noxis.sysExec at hfail ⊢
  dsimp only at hfail ⊢
  split
  · exact le_refl _
  rename_i h1
  rw [if_neg h1] at hfail
  split
  · exact helf
  rename_i h2
  rw [if_neg h2] at hfail
  split
  · exact hstk
  · rename_i h3
    rw [if_neg h3] at hfail
    cases hfail

theorem fork_same_iff (ht : Tallied m.k.vm.pmm) : Same i cur m (m.sysFork cur).1 ↔ m.k.vm.pmm.free = 0 := by
  constructor
  · intro hs
    by_contra h0
    have hlt := (ht.create h0).2
    have hfree := hs.free
    unfold Os.sysFork at hfree
    dsimp only at hfree
    split at hfree
    · have := sysFork_free m.k cur 0
      dsimp only at hfree
      omega
    · have := sysFork_free m.k cur (procAllocHeap m.heap).2
      dsimp only at hfree
      omega
  · intro h0
    have hnone := ht.create_none h0
    unfold Os.sysFork
    rw [hnone]
    dsimp only
    rw [if_pos (.inl rfl), Noxis.sysFork, hnone]
    exact same_failed m i cur

theorem exec_cached_same_iff (ht : Tallied m.k.vm.pmm) {img : Image} {argv : List (List UInt8)}
    (hfail : (Noxis.sysExec m.k i cur (some img) argv).2 = .value (-1)) :
    Same i cur m ⟨(Noxis.sysExec m.k i cur (some img) argv).1, m.heap⟩ ↔ m.k.vm.pmm.free = 0 := by
  constructor
  · intro hs
    by_contra h0
    have hlt := (ht.create h0).2
    have hle := sysExec_free m.k i cur img argv hfail
    have hfree := hs.free
    dsimp only at hfree
    omega
  · intro h0
    rw [Noxis.sysExec, ht.create_none h0]
    exact same_failed m i cur

theorem exec_loaded_same_iff {L : List Kheap.Block} (hheap : m.heap.Holds L) {n : Nat} (hn : n ≤ 2 ^ 64 - 16) (img : Image)
    (argv : List (List UInt8)) : Same i cur m (m.sysExec i cur argv (.loaded n img)).1 ↔ (m.heap.step (.kmalloc n)).2 = 0 := by
  unfold Os.sysExec
  dsimp only
  constructor
  · intro hs
    by_contra h0
    set r := m.heap.step (.kmalloc n)
    have hlive : r.1.live = (r.2, n) :: m.heap.live := if_neg h0
    have hnew := (hs.live (r.2, n)).1 (by rw [hlive]; exact mem_cons_self)
    obtain ⟨L', hL'⟩ := hheap.kmalloc hn
    have hnd := hL'.nodup
    rw [hlive, map_cons] at hnd
    exact (nodup_cons.1 hnd).1 (mem_map_of_mem hnew)
  · intro h0
    have hlive : (m.heap.step (.kmalloc n)).1.live = m.heap.live := if_pos h0
    rw [if_pos h0]
    exact ⟨rfl, fun _ => rfl, fun p => by rw [hlive], rfl, fun _ => rfl, fun _ _ _ => rfl⟩

theorem brkPage_none {s : Vm} (ht : Tallied s.pmm) (h0 : s.pmm.free = 0) (a va : Nat) :
    brkPage a va s = ({ s with pmm := { s.pmm with failed := true } }, false) := by
  have hnone := ht.alloc_none h0
  have hzero : s.allocFrame.1 = 0 := congrArg Prod.fst hnone
  unfold brkPage
  dsimp only
  rw [if_pos hzero, Vm.allocFrame, hnone]

theorem brkPage_lt {s : Vm} (ht : Tallied s.pmm) (h0 : s.pmm.free ≠ 0) (a va : Nat) :
    (brkPage a va s).2 = true ∧ (brkPage a va s).1.pmm.free < s.pmm.free := by
  obtain ⟨f, hf0, -, -, hf, -, -, hfree⟩ := ht.alloc_some h0
  have hne : s.allocFrame.1 ≠ 0 := fun hx => hf0 (hf.symm.trans hx)
  have hmap := (free_le_closed (s.pmm.free - 1)).map (s := s.allocFrame.2.setFrame s.allocFrame.1 (fun _ => 0)) (a := a)
    (le_of_eq hfree) va s.allocFrame.1 (PAGE_RW ||| PAGE_USER)
  unfold brkPage
  dsimp only
  rw [if_neg hne]
  refine ⟨rfl, ?_⟩
  dsimp only
  omega

theorem brk_same_iff (ht : Tallied m.k.vm.pmm) {addr : Nat} (hfail : (Req.brk addr).Failed cur (sysBrk m.k i cur addr).2) :
    Same i cur m ⟨(sysBrk m.k i cur addr).1, m.heap⟩ ↔ userHeapMax ≤ addr ∨ m.k.vm.pmm.free = 0 := by
  obtain ⟨habove, hret⟩ := hfail
  unfold sysBrk at hret ⊢
  by_cases hmax : userHeapMax ≤ addr
  · rw [if_pos (.inr (.inr hmax))]
    exact ⟨fun _ => .inl hmax, fun _ => ⟨rfl, fun _ => rfl, fun _ => Iff.rfl, rfl, fun _ => rfl, fun _ _ _ => rfl⟩⟩
  have hgo : ¬ (addr = 0 ∨ addr ≤ cur.brk ∨ userHeapMax ≤ addr) := by omega
  rw [if_neg hgo] at hret ⊢
  generalize hn : (pageUp addr - pageUp cur.brk) / 4096 = n at hret ⊢
  generalize hbody : (fun (j : Nat) (s : Vm) => brkPage cur.pml4 (pageUp cur.brk + 4096 * j) s) = body at hret ⊢
  cases hloop : forUpTo body n m.k.vm with
  | mk s ok =>
  cases ok with
  | true =>
    rw [hloop] at hret
    have hx : (addr : Int) = cur.brk := by
      injection hret
    omega
  | false =>
    dsimp only
    by_cases h0 : m.k.vm.pmm.free = 0
    · -- the first iteration stops the loop
      have hstop := (forUpTo_inv body (fun j s => j = 0 ∧ s = m.k.vm)
        (fun s => s = { m.k.vm with pmm := { m.k.vm.pmm with failed := true } }) n m.k.vm ⟨rfl, rfl⟩ (fun j s _ hj => by
          obtain ⟨rfl, rfl⟩ := hj
          subst hbody
          simp only [brkPage_none ht h0]
          exact ⟨fun hx => (by cases hx), fun _ => trivial⟩)).2
      rw [hloop] at hstop
      obtain rfl := hstop rfl
      exact ⟨fun _ => .inr h0, fun _ => same_failed m i cur⟩
    · have hless := (forUpTo_inv body (fun j s => (j = 0 → s = m.k.vm) ∧ (0 < j → s.pmm.free < m.k.vm.pmm.free))
        (fun s => s.pmm.free < m.k.vm.pmm.free) n m.k.vm ⟨fun _ => rfl, fun hx => absurd hx (lt_irrefl 0)⟩ (fun j s _ hj => by
          subst hbody
          dsimp only
          rcases Nat.eq_zero_or_pos j with rfl | hpos
          · obtain rfl := hj.1 rfl
            obtain ⟨htrue, hlt⟩ := brkPage_lt ht h0 cur.pml4 (pageUp cur.brk + 4096 * 0)
            exact ⟨fun _ => ⟨fun hx => absurd hx (by omega), fun _ => hlt⟩, fun hx => by rw [htrue] at hx; cases hx⟩
          · have hlt := hj.2 hpos
            have hle := (free_le_closed s.pmm.free).brkPage (a := cur.pml4) (le_refl _) (pageUp cur.brk + 4096 * j)
            exact ⟨fun _ => ⟨fun hx => absurd hx (by omega), fun _ => by omega⟩, fun _ => by omega⟩)).2
      rw [hloop] at hless
      have hlt : s.pmm.free < m.k.vm.pmm.free := hless rfl
      refine ⟨fun hs => ?_, fun hx => ?_⟩
      · have hfree : s.pmm.free = m.k.vm.pmm.free := hs.free
        omega
      · omega

end Calls

/-- **A failed call is atomic exactly when it has taken nothing.**  A fork or an exec that returns -1, or a brk that returns
the old break, leaves the allocators and the caller as they were if no frame was free when it started, or if it was refused
before its first allocation (the program is not found or cannot be loaded, the address is above the heap's ceiling); and in
no other case. -/
theorem failed_call_unchanged_iff (m : Os) (ht : Tallied m.k.vm.pmm) (L : List Kheap.Block) (hheap : m.heap.Holds L) (i : Nat)
    (cur : Process) (req : Req) (hsize : ∀ n img argv, req = .exec (.loaded n img) argv → n ≤ 2 ^ 64 - 16)
    (hfail : req.Failed cur (m.call i cur req).2) : Same i cur m (m.call i cur req).1 ↔ Untaken m req := by
  cases req with
  | fork => exact fork_same_iff ht
  | exec prog argv =>
    cases prog with
    | missing => exact ⟨fun _ => trivial, fun _ => ⟨rfl, fun _ => rfl, fun _ => Iff.rfl, rfl, fun _ => rfl, fun _ _ _ => rfl⟩⟩
    | cached img => exact exec_cached_same_iff ht hfail
    | loaded n img => exact exec_loaded_same_iff hheap (hsize n img argv rfl) img argv
  | brk addr => exact brk_same_iff ht hfail

/-! ## The booted machine -/

theorem pmmInit_tallied (ram : Nat) (hram : 0 < ram / 4096) : Tallied (pmmInit ram) := by
  generalize hn : (pmmInit ram).nframes = n
  have hn' : n = if ram / PAGE_SIZE > MAX_FRAMES then MAX_FRAMES else ram / PAGE_SIZE := hn.symm
  have hpos : 0 < n := by
    rw [hn', show PAGE_SIZE = 4096 from rfl, show MAX_FRAMES = 2 ^ 20 from rfl]
    split <;> omega
  have hused : ∀ f, (pmmInit ram).used f = (decide (f < n) && (decide (f < 512) || (decide (4096 ≤ f) && decide (f < 12288)))) :=
    fun f => by rw [← hn]; rfl
  have hfree : (pmmInit ram).free = n - 512 - (min 12288 n - 4096) := by rw [← hn]; rfl
  refine ⟨by rw [hused]; simp [hpos], ?_⟩
  -- the clear bits: those between 2 MB and 16 MB, and those above 48 MB
  have hset : (Finset.range n).filter (fun f => (pmmInit ram).used f = false) = Finset.Ico 512 (min n 4096) ∪ Finset.Ico 12288 n := by
    ext f
    rw [Finset.mem_filter, hused, Finset.mem_union, Finset.mem_Ico, Finset.mem_Ico, Finset.mem_range]
    simp only [and_eq_false_iff, or_eq_false_iff, decide_eq_false_iff_not]
    omega
  have hcard : freeFrames (pmmInit ram) = ((Finset.range n).filter (fun f => (pmmInit ram).used f = false)).card := by
    unfold freeFrames
    rw [hn, Finset.card_filter]
    exact Finset.sum_congr rfl (fun f _ => by cases (pmmInit ram).used f <;> rfl)
  have hdisj : Disjoint (Finset.Ico 512 (min n 4096)) (Finset.Ico 12288 n) := by
    rw [Finset.disjoint_left]
    intro f h1 h2
    rw [Finset.mem_Ico] at h1 h2
    omega
  rw [hcard, hset, Finset.card_union_of_disjoint hdisj, Nat.card_Ico, Nat.card_Ico, hfree]
  omega

def bootOs : Os := ⟨boot startVm bareImage 0x1000, Kheap.Pool.boot fun _ => 0⟩

theorem AllocClosed.boot {P : Pmm → Prop} (hP : AllocClosed P) {s : Vm} (h : P s.pmm) (img : Image) (addr : Nat) :
    P (boot s img addr).vm.pmm := by
  set r := vmmCreateAddressSpace s
  have h1 := hP.elf (a := r.1) (hP.create h) img
  unfold Noxis.boot bootStack
  dsimp only
  rw [storeAll_pmm]
  exact hP.map (s := (elf64LoadInto r.2 r.1 img).1.allocFrame.2)
    (hP.alloc _ h1) _ _ _

theorem bootOs_tallied : Tallied bootOs.k.vm.pmm := by
  refine tallied_closed.boot ?_ bareImage 0x1000
  have h0 := pmmInit_tallied (128 * 1024 * 1024) (by decide)
  rw [startVm, (vmmInit_pmm _).1]
  exact tallied_closed.alloc _ (tallied_closed.alloc _ (tallied_closed.alloc _ (tallied_closed.alloc _ (tallied_closed.alloc _ h0))))

theorem bootOs_free : bootOs.k.vm.pmm.free ≠ 0 := by
  obtain ⟨F, -, -, hroom⟩ := boot_sharing
  have h1 : bootOs.k.vm.pmm.free = freeFrames bootOs.k.vm.pmm := bootOs_tallied.count
  have h2 : 3570 ≤ freeFrames bootOs.k.vm.pmm := hroom.enough
  omega

theorem bootOs_first : ∃ cur, bootOs.k.procs[0]? = some cur := by
  obtain ⟨cur, hp⟩ : ∃ cur, bootOs.k.procs = [cur] := ⟨_, rfl⟩
  exact ⟨cur, by rw [hp]; rfl⟩

theorem exec_zeros (k : Kernel) (i : Nat) (cur : Process) (h : (vmmCreateAddressSpace k.vm).1 ≠ 0) :
    sysExec k i cur (some fun _ => 0) [] = ({ k with vm := (vmmCreateAddressSpace k.vm).2 }, .value (-1)) := by
  have helf : ∀ s a, elf64LoadInto s a (fun _ => 0) = (s, 0, 0) := fun s a => by
    rw [elf64LoadInto, show elfOk (fun _ => 0) = false by decide]
    rfl
  rw [sysExec]
  dsimp only
  rw [if_neg h, helf, if_pos rfl]

/-- **An exec of a file that is no program keeps a frame.**  It returns -1 and one frame less is free. -/
theorem failed_exec_leaks : ∃ cur, bootOs.k.procs[0]? = some cur ∧
    (bootOs.call 0 cur (.exec (.cached fun _ => 0) [])).2 = .value (-1) ∧
    (bootOs.call 0 cur (.exec (.cached fun _ => 0) [])).1.k.vm.pmm.free < bootOs.k.vm.pmm.free := by
  obtain ⟨hne, hlt⟩ := bootOs_tallied.create bootOs_free
  obtain ⟨cur, hcur⟩ := bootOs_first
  refine ⟨cur, hcur, ?_⟩
  generalize bootOs = m at hne hlt ⊢
  simp only [Os.call, Os.sysExec]
  rw [exec_zeros _ _ _ hne]
  exact ⟨rfl, hlt⟩

/-- The same call, which is not atomic because frames were free. -/
theorem failed_call_unchanged_iff_zeros : ∃ cur, bootOs.k.procs[0]? = some cur ∧
    (Req.exec (.cached fun _ => 0) []).Failed cur (bootOs.call 0 cur (.exec (.cached fun _ => 0) [])).2 ∧
    (Same 0 cur bootOs (bootOs.call 0 cur (.exec (.cached fun _ => 0) [])).1 ↔ bootOs.k.vm.pmm.free = 0) := by
  have hne := (bootOs_tallied.create bootOs_free).1
  have hfail : ∀ cur, (Req.exec (.cached fun _ => 0) []).Failed cur (bootOs.call 0 cur (.exec (.cached fun _ => 0) [])).2 := by
    intro cur
    simp only [Os.call, Os.sysExec, Req.Failed]
    rw [exec_zeros _ _ _ hne]
  obtain ⟨cur, hcur⟩ := bootOs_first
  exact ⟨cur, hcur, hfail cur, failed_call_unchanged_iff bootOs bootOs_tallied _ (Kheap.Pool.boot_holds _) 0 _ _
    (fun n img argv hx => by cases hx) (hfail cur)⟩

end Noxis
