import Noxis.Elf
import Noxis.KernelStore
/-!
# Process — fork, exec, exit and waitpid (`proc/syscalls.c`, `proc/scheduler.c`)

`Kernel` is the memory manager under the processes that use it.  A step names the running process by its place in the
list of all processes, so a list of steps is any interleaving the scheduler can make.  `step_intact` says that every step
keeps the address spaces of the live processes and the reference counts in order, as long as no frame is mapped by more
than 255 of them and the programs and pointers the kernel does not check stay in the user half (`StepOk`);
`no_live_frame_recycled` follows for every run.  The counter saturates at 255, and `recycled_while_mapped` shows what a
256th sharer does.
-/
namespace Noxis

open List Option Bool Radix

/-- The fields of `process_t` that the memory of a process depends on.  `parent` is a pointer, compared with the `addr` of
the waiting process and never followed. -/
structure Process where
  addr : Nat
  pid : Nat
  pml4 : Nat
  stackLow : Nat
  brk : Nat
  parent : Nat
  zombie : Bool
  exitCode : Nat
deriving DecidableEq

/-- `procs` is the list from `g_all_head`, the newest process first. -/
structure Kernel where
  vm : Vm
  procs : List Process
  nextPid : Nat
  halted : Bool

inductive Ret where
  | value (x : Int)
  | byte (b : UInt8)
  | wait
  | halt
deriving DecidableEq

/-- The PML4 frames of the live address spaces, those of zombies included. -/
def Kernel.roots (k : Kernel) : List Nat := k.procs.map Process.pml4

/-! ## fork -/

/-- `sys_fork`; `addr` is what `proc_alloc` returns, 0 for NULL. -/
def sysFork (k : Kernel) (cur : Process) (addr : Nat) : Kernel × Ret :=
  let r := vmmCreateAddressSpace k.vm
  if r.1 = 0 then ({ k with vm := r.2 }, .value (-1)) else
  match vmmCowUserSpace r.2 r.1 cur.pml4 with
  | (s, false) => ({ k with vm := s }, .value (-1))
  | (s, true) =>
    if addr = 0 then ({ k with vm := s }, .value (-1))
    else
      ({ k with vm := s, procs := ⟨addr, k.nextPid, r.1, cur.stackLow, cur.brk, cur.addr, false, 0⟩ :: k.procs,
                nextPid := k.nextPid + 1 }, .value k.nextPid)

/-! ## exec -/

def MAX_ARGS : Nat := 16

def wordBytes (x : Nat) : List UInt8 := (List.range 8).map (fun k => UInt8.ofNat (x / 256 ^ k))

def subOff (off n : Nat) : Nat := (off + 2 ^ 64 - n) % 2 ^ 64

/-- The strings, the last one on top: the stores, the offset reached and the user addresses. -/
def pushStrings : List (List UInt8) → Nat → List (Nat × UInt8) × Nat × List Nat
  | [], off => ([], off, [])
  | a :: rest, off =>
    let r := pushStrings rest off
    let off := subOff r.2.1 (a.length + 1)
    (r.1 ++ fill off (a ++ [0]), off, (USTACK_BASE + off) % 2 ^ 64 :: r.2.2)

def pushWords : List Nat → Nat → List (Nat × UInt8) × Nat
  | [], off => ([], off)
  | x :: xs, off =>
    let r := pushWords xs (subOff off 8)
    (fill (subOff off 8) (wordBytes x) ++ r.1, r.2)

/-- What `sys_exec` stores into the stack page, by offset: strings, NULL, the pointers from the last to the first, argc. -/
def argvBlock (argv : List (List UInt8)) : List (Nat × UInt8) × Nat :=
  let args := argv.take MAX_ARGS
  let r := pushStrings args 0x1000
  let w := pushWords (0 :: r.2.2.reverse ++ [args.length]) (r.2.1 / 8 * 8)
  (r.1 ++ w.1, w.2)

/-- Stores relative to the physical address of a frame, which wrap as 64-bit addresses do. -/
def storeAll (f : Nat) : List (Nat × UInt8) → Vm → Vm
  | [], s => s
  | (o, b) :: stores, s => storeAll f stores (s.storePhys ((f * 4096 + o) % 2 ^ 64) b)

/-- `sys_exec` by the process at place `i`, for what the lookup found at the path and the strings `argv` points to. -/
def sysExec (k : Kernel) (i : Nat) (cur : Process) (prog : Option Image) (argv : List (List UInt8)) : Kernel × Ret :=
  match prog with
  | none => (k, .value (-1))
  | some img =>
    let r := vmmCreateAddressSpace k.vm
    if r.1 = 0 then ({ k with vm := r.2 }, .value (-1)) else
    let e := elf64LoadInto r.2 r.1 img
    if e.2.1 = 0 then ({ k with vm := e.1 }, .value (-1)) else
    let t := mapNew e.1 r.1 USTACK_BASE
    if t.2 = 0 then ({ k with vm := t.1 }, .value (-1))
    else
      let s := storeAll t.2 (argvBlock argv).1 t.1
      ({ k with vm := vmmFreeUserSpace s cur.pml4,
                procs := k.procs.set i { cur with pml4 := r.1, stackLow := USTACK_BASE, brk := e.2.2 } }, .value 0)

/-! ## exit and waitpid -/

def sysExit (k : Kernel) (i : Nat) (cur : Process) (code : Nat) : Kernel × Ret :=
  ({ k with procs := k.procs.set i { cur with zombie := true, exitCode := code } }, .value 0)

/-- `scheduler_reap`: the first zombie child, the one with `pid` for a positive `pid`. -/
def schedulerReap (procs : List Process) (parent : Nat) (pid : Int) : Option Process :=
  procs.find? (fun p => p.zombie && p.parent == parent && (decide (pid ≤ 0) || decide ((p.pid : Int) = pid)))

/-- One turn of the loop in `sys_waitpid`; it goes on waiting when no child can be reaped. -/
def sysWaitpid (k : Kernel) (i : Nat) (cur : Process) (pid : Int) (status : Nat) : Kernel × Ret :=
  match schedulerReap k.procs cur.addr pid with
  | none => (k, .wait)
  | some z =>
    match copyOut (writeProtect (kernelCr0 resetCr0)) cur.pml4 (if status = 0 then [] else storeInt status z.exitCode)
        k.vm cur.stackLow with
    | (s, none) => ({ k with vm := s, halted := true }, .halt)
    | (s, some low) =>
      ({ k with vm := vmmFreeUserSpace s z.pml4,
                procs := (k.procs.set i { cur with stackLow := low }).erase z }, .value z.pid)

/-! ## User accesses -/

/-- A user-mode read of a byte, or the write of `b` for `some b`, with the copy-on-write faults it takes. -/
def userMode (k : Kernel) (i : Nat) (cur : Process) (va : Nat) (w : Option UInt8) : Kernel × Ret :=
  match userAccess k.vm cur.pml4 va w.isSome cur.stackLow with
  | (s, none) => ({ k with vm := s, halted := true }, .halt)
  | (s, some (low, f)) =>
    let procs := k.procs.set i { cur with stackLow := low }
    match w with
    | none => ({ k with vm := s, procs := procs }, .byte (s.mem f (va % 4096)))
    | some b => ({ k with vm := s.setByte f (va % 4096) b, procs := procs }, .value 0)

inductive Call where
  | fork (addr : Nat)
  | exec (prog : Option Image) (argv : List (List UInt8))
  | exit (code : Nat)
  | waitpid (pid : Int) (status : Nat)
  | access (va : Nat) (w : Option UInt8)

def Kernel.call (k : Kernel) (i : Nat) (cur : Process) : Call → Kernel × Ret
  | .fork addr => sysFork k cur addr
  | .exec prog argv => sysExec k i cur prog argv
  | .exit code => sysExit k i cur code
  | .waitpid pid status => sysWaitpid k i cur pid status
  | .access va w => userMode k i cur va w

/-- The process at place `i` makes a call; a zombie does not run. -/
def Kernel.step (k : Kernel) (c : Nat × Call) : Kernel × Ret :=
  if k.halted then (k, .halt) else
  match k.procs[c.1]? with
  | none => (k, .wait)
  | some cur => if cur.zombie then (k, .wait) else k.call c.1 cur c.2

/-- `early.c`: the first stack page, with `argc = 0` and NULL on it. -/
def bootStack (s : Vm) (pml4 : Nat) : Vm :=
  let c := s.allocFrame
  storeAll c.1 (fill 4088 (wordBytes 0) ++ fill 4080 (wordBytes 0))
    (vmmMapPageInto c.2 pml4 USTACK_BASE c.1 (PAGE_RW ||| PAGE_USER)).1

/-- `early.c`: the first process, with the program `img`. -/
def boot (s : Vm) (img : Image) (addr : Nat) : Kernel :=
  let r := vmmCreateAddressSpace s
  let e := elf64LoadInto r.2 r.1 img
  ⟨bootStack e.1 r.1, [⟨addr, 1, r.1, USTACK_BASE, e.2.2, 0, false, 0⟩], 2, false⟩

/-! ## Where the argv block goes -/

/-- The strings, NULL, the pointers and argc fit in the one page the stack has. -/
def ArgvFits (argv : List (List UInt8)) : Prop :=
  ((argv.take MAX_ARGS).map (fun a => a.length + 1)).sum ≤ 4096 ∧
  8 * ((argv.take MAX_ARGS).length + 2) ≤ (4096 - ((argv.take MAX_ARGS).map (fun a => a.length + 1)).sum) / 8 * 8

theorem mem_fill : ∀ (bytes : List UInt8) (o : Nat) (p : Nat × UInt8), p ∈ fill o bytes → o ≤ p.1 ∧ p.1 < o + bytes.length
  | [], _, _, h => by cases h
  | b :: bytes, o, p, h => by
    rcases mem_cons.1 h with rfl | h
    · simp
    · have := mem_fill bytes (o + 1) p h
      rw [length_cons]
      omega

theorem pushStrings_bound : ∀ (args : List (List UInt8)) (off : Nat), off ≤ 4096 →
    (args.map (fun a => a.length + 1)).sum ≤ off → (pushStrings args off).2.1 = off - (args.map (fun a => a.length + 1)).sum ∧
    (pushStrings args off).2.2.length = args.length ∧ ∀ p ∈ (pushStrings args off).1, p.1 < 4096
  | [], off, _, _ => by simp [pushStrings]
  | a :: rest, off, hoff, hsum => by
    rw [map_cons, sum_cons] at hsum ⊢
    obtain ⟨h1, h2, h3⟩ := pushStrings_bound rest off hoff (by omega)
    have hsub : subOff (pushStrings rest off).2.1 (a.length + 1) =
        off - (a.length + 1 + (rest.map (fun a => a.length + 1)).sum) := by
      unfold subOff
      rw [h1]
      omega
    refine ⟨hsub, ?_, fun p hp => ?_⟩
    · simp only [pushStrings, length_cons, h2]
    · simp only [pushStrings, mem_append] at hp
      rcases hp with hp | hp
      · exact h3 p hp
      · have := mem_fill _ _ p hp
        rw [hsub, length_append, length_singleton] at this
        omega

theorem pushWords_bound : ∀ (xs : List Nat) (off : Nat), off ≤ 4096 → 8 * xs.length ≤ off →
    ∀ p ∈ (pushWords xs off).1, p.1 < 4096
  | [], _, _, _, _, hp => by cases hp
  | x :: xs, off, hoff, hlen, p, hp => by
    rw [length_cons] at hlen
    have hsub : subOff off 8 = off - 8 := by
      unfold subOff
      omega
    simp only [pushWords, hsub, mem_append] at hp
    rcases hp with hp | hp
    · have := mem_fill _ _ p hp
      rw [show (wordBytes x).length = 8 from rfl] at this
      omega
    · exact pushWords_bound xs (off - 8) (by omega) (by omega) p hp

theorem argvBlock_bound {argv : List (List UInt8)} (h : ArgvFits argv) : ∀ p ∈ (argvBlock argv).1, p.1 < 4096 := by
  obtain ⟨h1, h2, h3⟩ := pushStrings_bound (argv.take MAX_ARGS) 0x1000 (le_refl _) h.1
  intro p hp
  simp only [argvBlock, mem_append] at hp
  rcases hp with hp | hp
  · exact h3 p hp
  · refine pushWords_bound _ _ (by omega) ?_ p hp
    rw [length_append, length_cons, length_reverse, length_singleton, h2, h1]
    have := h.2
    omega

theorem storeAll_pmm (f : Nat) : ∀ (stores : List (Nat × UInt8)) (s : Vm), (storeAll f stores s).pmm = s.pmm
  | [], _ => rfl
  | (_, _) :: stores, _ => (storeAll_pmm f stores _).trans rfl

section Stores

variable {R : List Nat} {a v : Nat} {e : Pte}

theorem Sound.storeAll (ha : a ∈ R) (hv : v < userPages) (stores : List (Nat × UInt8)) : ∀ (s : Vm), Sound s R →
    s.leaf a v = some e → (∀ p ∈ stores, p.1 < 4096) →
    Sound (storeAll e.frame stores s) R ∧ ∀ c ∈ R, ∀ w, (storeAll e.frame stores s).leaf c w = s.leaf c w := by
  induction stores with
  | nil => exact fun _ h _ _ => ⟨h, fun _ _ _ => rfl⟩
  | cons p stores ih =>
    obtain ⟨o, b⟩ := p
    intro s h he hall
    have ho : o < 4096 := hall (o, b) mem_cons_self
    have hf := h.shape.held_lt (h.shape.leafHeld a ha v hv e he)
    have hst : s.storePhys ((e.frame * 4096 + o) % 2 ^ 64) b = s.setByte e.frame o b := by
      unfold Vm.storePhys
      rw [Nat.mod_eq_of_lt (by omega), show (e.frame * 4096 + o) / 4096 = e.frame by omega,
        show (e.frame * 4096 + o) % 4096 = o by omega]
    obtain ⟨-, hl⟩ := h.shape.setByte (o := o) (b := b) ha hv he
    obtain ⟨h1, h2⟩ := ih _ (h.setByte ha hv he) (by rw [hl a ha v]; exact he)
      (fun p hp => hall p (mem_cons_of_mem _ hp))
    rw [Noxis.storeAll, hst]
    exact ⟨h1, fun c hc w => (h2 c hc w).trans (hl c hc w)⟩

end Stores

/-! ## One step -/

/-- What a step needs: a fork shares no frame that 255 leaves map already, a program and its arguments fit where the kernel
puts them without a check, and a status goes to the user half. -/
def StepOk (k : Kernel) (c : Nat × Call) : Prop :=
  match c.2 with
  | .fork _ => ∀ cur, k.procs[c.1]? = some cur → ∀ f, mapCount k.vm k.roots f + leafCount k.vm cur.pml4 f ≤ 255
  | .exec prog argv => (∀ img, prog = some img → Under img) ∧ ArgvFits argv
  | .exit _ => True
  | .waitpid _ status => status + 4 ≤ 2 ^ 39
  | .access _ _ => True

def Kernel.Sound (k : Kernel) : Prop := Noxis.Sound k.vm k.roots

section Step

variable {k : Kernel} {i : Nat} {cur : Process}

theorem mem_kernelRoots (hi : k.procs[i]? = some cur) : cur.pml4 ∈ k.roots := mem_map_of_mem (mem_of_getElem? hi)

theorem roots_set (hi : k.procs[i]? = some cur) {p : Process} (hp : p.pml4 = cur.pml4) :
    (k.procs.set i p).map Process.pml4 = k.roots := by
  obtain ⟨hlt, hget⟩ := List.getElem?_eq_some_iff.1 hi
  unfold Kernel.roots
  rw [map_set, hp, ← hget]
  apply ext_getElem?
  intro j
  rw [List.getElem?_set]
  split
  · next hj => subst hj; rw [if_pos (by simpa using hlt), List.getElem?_map, List.getElem?_eq_getElem hlt, map_some]
  · rfl

theorem sound_set {s : Vm} (h : Noxis.Sound s k.roots) (hi : k.procs[i]? = some cur) {p : Process} (hp : p.pml4 = cur.pml4) :
    Noxis.Sound s ((k.procs.set i p).map Process.pml4) := by
  rw [roots_set hi hp]
  exact h

/-- **A fork that found its frames**: a fresh address space that shares the pages of the caller. -/
theorem sysFork_eq (h : Shape k.vm k.roots) (hi : k.procs[i]? = some cur) (addr : Nat)
    (hok : (sysFork k cur addr).1.vm.pmm.failed = false) :
    ∃ s1 s2 d, Took k.vm s1 d ∧ Shape s1 (d :: k.roots) ∧ s1.child d 0 = none ∧ cur.pml4 ≠ d ∧
      Cow s1 s2 (d :: k.roots) cur.pml4 d userPages ∧ sysFork k cur addr = if addr = 0 then ({ k with vm := s2 }, .value (-1))
        else ({ k with vm := s2, procs := ⟨addr, k.nextPid, d, cur.stackLow, cur.brk, cur.addr, false, 0⟩ :: k.procs,
                       nextPid := k.nextPid + 1 }, .value k.nextPid) := by
  have ha := mem_kernelRoots hi
  unfold sysFork at hok ⊢
  simp only at hok ⊢
  set r := vmmCreateAddressSpace k.vm
  have hok1 : r.2.pmm.failed = false := by
    split at hok
    · exact hok
    · split at hok
      next s heq => exact vmmCowUserSpace_forks.failed _ _ _ (by rw [heq]; exact hok)
      next s heq => exact vmmCowUserSpace_forks.failed _ _ _ (by rw [heq]; split at hok <;> exact hok)
  obtain ⟨h0, htook, hshape, hempty⟩ := vmmCreateAddressSpace_spec h hok1
  rw [if_neg h0] at hok ⊢
  generalize r.1 = d at *
  generalize r.2 = s1 at *
  have had : cur.pml4 ≠ d := fun hx => (nodup_cons.1 hshape.nodup).1 (hx ▸ ha)
  have hok2 : (vmmCowUserSpace s1 d cur.pml4).1.pmm.failed = false := by
    split at hok
    next s heq => rw [heq]; exact hok
    next s heq => rw [heq]; split at hok <;> exact hok
  obtain ⟨hb, hcow⟩ := vmmCowUserSpace_spec hshape (mem_cons_of_mem _ ha) mem_cons_self had
    (fun v _ => leaf_of_empty hempty v) hok2
  cases hr : vmmCowUserSpace s1 d cur.pml4 with | mk s2 b =>
  rw [hr] at hb hcow
  obtain rfl : b = true := hb
  exact ⟨s1, s2, d, htook, hshape, hempty, had, hcow, rfl⟩

section

variable (h : k.Sound) (hi : k.procs[i]? = some cur)
include h hi

theorem sysFork_sound (addr : Nat) (hlim : ∀ f, mapCount k.vm k.roots f + leafCount k.vm cur.pml4 f ≤ 255)
    (hok : (sysFork k cur addr).1.vm.pmm.failed = false) : (sysFork k cur addr).1.Sound := by
  have ha := mem_kernelRoots hi
  obtain ⟨s1, s2, d, htook, hshape, hempty, had, hcow, heq⟩ := sysFork_eq h.shape hi addr hok
  have hnone : ∀ v < userPages, s1.leaf d v = none := fun v _ => leaf_of_empty hempty v
  have hsame : ∀ b ∈ k.roots, ∀ v < userPages, (s1.leaf b v).map Pte.frame = (k.vm.leaf b v).map Pte.frame :=
    fun b hb v _ => by rw [htook.leaf h.shape hb v]
  have hcount1 : Counted s1 (d :: k.roots) := fun f => by
    rw [mapCount_cons, leafCount_empty hnone f, zero_add]
    exact htook.counted h.shape h.counted f
  have hcount : Counted s2 (d :: k.roots) := by
    refine hcow.counted hshape (mem_cons_of_mem _ ha) mem_cons_self hnone hcount1 (fun f => ?_)
    rw [mapCount_cons, leafCount_empty hnone f, zero_add, mapCount_congr f hsame, leafCount_congr f (hsame _ ha)]
    exact hlim f
  have hsound : Sound s2 (d :: k.roots) := ⟨hcow.shape, hcount⟩
  rw [heq]
  split
  · exact hsound.of_cons
  · exact hsound

theorem sysExit_sound (code : Nat) : (sysExit k i cur code).1.Sound :=
  sound_set h hi rfl

/-- **A user access**, of a byte or to it, changes the page it goes to at most. -/
theorem userMode_shows (va : Nat) (w : Option UInt8) : let r := (userMode k i cur va w).1
    r.vm.pmm.failed = false → r.roots = k.roots ∧ (r.vm = k.vm ∨ ∃ e p, Shows k.vm r.vm k.roots cur.pml4 (va / 4096) e p) := by
  have ha := mem_kernelRoots hi
  unfold userMode
  by_cases hva : va < 2 ^ 39
  swap
  · have hu : userAccess k.vm cur.pml4 va w.isSome cur.stackLow = (k.vm, none) := by unfold userAccess; rw [if_neg hva]
    rw [hu]
    exact fun _ => ⟨rfl, .inl rfl⟩
  intro r hok
  have hok' : (userAccess k.vm cur.pml4 va w.isSome cur.stackLow).1.pmm.failed = false := by
    subst r
    split at hok
    next s heq => rw [heq]; exact hok
    next s low f heq => rw [heq]; cases w <;> exact hok
  have hspec := userAccess_spec h.shape h.counted ha hva w.isSome cur.stackLow hok'
  subst r
  cases hp : accessPage (k.vm.page cur.pml4 (va / 4096)) va cur.stackLow with
  | none =>
    rw [hp] at hspec
    rw [hspec]
    exact ⟨rfl, .inl rfl⟩
  | some lp =>
    obtain ⟨low, p⟩ := lp
    rw [hp] at hspec
    obtain ⟨s', e, heq, hs, hrw⟩ := hspec
    rw [heq]
    cases w with
    | none => exact ⟨roots_set hi rfl, .inr ⟨e, p, hs⟩⟩
    | some b => exact ⟨roots_set hi rfl, .inr ⟨e, _, hs.trans
        (setByte_spec hs.shape hs.counted ha (by unfold userPages; omega) hs.leaf (hrw (.inl rfl)))⟩⟩

theorem userMode_sound (va : Nat) (w : Option UInt8) (hok : (userMode k i cur va w).1.vm.pmm.failed = false) :
    (userMode k i cur va w).1.Sound := by
  obtain ⟨hroots, hvm⟩ := userMode_shows h hi va w hok
  unfold Kernel.Sound
  rw [hroots]
  rcases hvm with hvm | ⟨e, p, hs⟩
  · rw [hvm]
    exact h
  · exact ⟨hs.shape, hs.counted⟩

end

theorem roots_replace (hi : k.procs[i]? = some cur) (p : Process) :
    (p.pml4 :: k.roots.erase cur.pml4).Perm ((k.procs.set i p).map Process.pml4) := by
  obtain ⟨hlt, hget⟩ := List.getElem?_eq_some_iff.1 hi
  have hlt' : i < k.roots.length := by unfold Kernel.roots; rw [length_map]; exact hlt
  have hget' : k.roots[i] = cur.pml4 := by rw [← hget]; exact getElem_map ..
  have h1 : k.roots.Perm (cur.pml4 :: k.roots.eraseIdx i) := hget' ▸ (getElem_cons_eraseIdx_perm hlt').symm
  have h2 := perm_cons_erase (mem_kernelRoots hi)
  have h3 : ((k.procs.set i p).map Process.pml4).Perm (p.pml4 :: k.roots.eraseIdx i) := by
    rw [map_set]
    exact set_perm_cons_eraseIdx hlt' p.pml4
  exact (((h2.symm.trans h1).cons_inv).cons p.pml4).trans h3.symm

/-- **`sys_exec`** fails and keeps every process as it was, or drops the old address space once the new one stands, with the
stack page alone at or above the break. -/
theorem sysExec_cases (h : k.Sound) (prog : Option Image) (argv : List (List UInt8))
    (himg : ∀ img, prog = some img → Under img) (hargv : ArgvFits argv)
    (hok : (sysExec k i cur prog argv).1.vm.pmm.failed = false) :
    (∃ s, Noxis.Sound s k.roots ∧ sysExec k i cur prog argv = ({ k with vm := s }, .value (-1))) ∨
    ∃ s d brk, Noxis.Sound s (d :: k.roots) ∧ sysExec k i cur prog argv =
      ({ k with vm := vmmFreeUserSpace s cur.pml4,
                procs := k.procs.set i { cur with pml4 := d, stackLow := USTACK_BASE, brk := brk } }, .value 0) ∧
      ∀ img, prog = some img → brk = loadEnd img (ePhnum img) ∧
        ∀ w < userPages, brk ≤ w * 4096 → w ≠ USTACK_BASE / 4096 → s.leaf d w = none := by
  cases prog with
  | none => exact .inl ⟨k.vm, h, rfl⟩
  | some img =>
    have hstack : USTACK_BASE / 4096 < userPages := by unfold userPages; decide
    set r := vmmCreateAddressSpace k.vm
    have hcreate : Intact (r.1 :: k.roots) r.2 := by
      cases hf : r.2.pmm.failed with
      | true => exact .inl hf
      | false => exact .inr (Sound.create h hf).2.1
    have hempty : r.2.pmm.failed = false → ∀ w < userPages,
        r.2.leaf r.1 w = none := fun hf => (Sound.create h hf).2.2
    unfold sysExec at hok ⊢
    simp only at hok ⊢
    generalize r.1 = d at *
    generalize r.2 = s1 at *
    have hd : d ∈ d :: k.roots := mem_cons_self
    by_cases h0 : d = 0
    · rw [if_pos h0] at hok ⊢
      exact .inl ⟨s1, (Intact.sound hcreate hok).of_cons, rfl⟩
    have helf := Intact.elf64LoadInto hcreate hd (himg img rfl)
    have habove := fun hf (hf1 : s1.pmm.failed = false) => elf64LoadInto_above hd (himg img rfl)
      ⟨hcreate.sound hf1, fun w hw _ => hempty hf1 w hw⟩ hf
    have hfirst := fun hf => elf64LoadInto_failed img (s := s1) (a := d) hf
    have hbrk := fun hf => elf64LoadInto_brk img (s := s1) (a := d) hf
    rw [if_neg h0] at hok ⊢
    generalize (elf64LoadInto s1 d img).1 = s2 at *
    generalize (elf64LoadInto s1 d img).2 = eb at *
    by_cases hentry : eb.1 = 0
    · rw [if_pos hentry] at hok ⊢
      exact .inl ⟨s2, (Intact.sound helf hok).of_cons, rfl⟩
    rw [if_neg hentry] at hok ⊢
    have hmap := Intact.mapNew helf hd hstack
    set c := mapNew s2 d USTACK_BASE
    by_cases hstk : c.2 = 0
    · rw [if_pos hstk] at hok ⊢
      exact .inl ⟨_, (Intact.sound hmap hok).of_cons, rfl⟩
    rw [if_neg hstk] at hok ⊢
    simp only at hok ⊢
    rw [vmmFreeUserSpace_failed, storeAll_pmm] at hok
    have hf2 := mapNew_failed hok
    have hs2 : Sound s2 (d :: k.roots) := Intact.sound helf hf2
    obtain ⟨-, -, -, p, hs⟩ := mapNew_sound hs2 hd hstack hok
    generalize c.1 = s3 at *
    generalize c.2 = f at *
    obtain ⟨hs4, hl4⟩ := Sound.storeAll hd hstack (argvBlock argv).1 s3 ⟨hs.shape, hs.counted⟩ hs.leaf (argvBlock_bound hargv)
    refine .inr ⟨_, d, eb.2, hs4, rfl, fun img' himg' => ?_⟩
    obtain rfl := some.inj himg'
    refine ⟨hbrk hentry, fun w hw htop hne => ?_⟩
    rw [hl4 d hd w]
    exact hs.none hd hw hne (habove hf2 (hfirst hf2) w hw (hbrk hentry ▸ htop))

theorem sysExec_sound (h : k.Sound) (hi : k.procs[i]? = some cur) (prog : Option Image) (argv : List (List UInt8))
    (himg : ∀ img, prog = some img → Under img) (hargv : ArgvFits argv)
    (hok : (sysExec k i cur prog argv).1.vm.pmm.failed = false) : (sysExec k i cur prog argv).1.Sound := by
  rcases sysExec_cases h prog argv himg hargv hok with ⟨s, hs, heq⟩ | ⟨s, d, brk, hs, heq, -⟩
  · rw [heq]
    exact hs
  have ha := mem_kernelRoots hi
  have hne : d ≠ cur.pml4 := fun hx => (nodup_cons.1 hs.shape.nodup).1 (hx ▸ ha)
  have hf := hs.free (mem_cons_of_mem d ha)
  rw [erase_cons_tail (by simpa using hne)] at hf
  rw [heq]
  exact hf.perm (roots_replace hi { cur with pml4 := d, stackLow := USTACK_BASE, brk := brk })

/-- **A process that `sys_exec` has just started**: its stack and its break are the new program's, and the stack page is all
that is mapped at or above the break. -/
theorem exec_started (h : k.Sound) {img : Image} (himg : Under img) {argv : List (List UInt8)} (hargv : ArgvFits argv)
    (hret : (k.step (i, .exec (some img) argv)).2 = .value 0) (hok : (k.step (i, .exec (some img) argv)).1.vm.pmm.failed = false) :
    let r := k.step (i, .exec (some img) argv)
    r.1.Sound ∧ r.1.halted = false ∧ ∃ p, r.1.procs[i]? = some p ∧ p.zombie = false ∧ p.stackLow = USTACK_BASE ∧
    p.brk = loadEnd img (ePhnum img) ∧
    ∀ w < userPages, p.brk ≤ w * 4096 → w ≠ USTACK_BASE / 4096 → r.1.vm.leaf p.pml4 w = none := by
  unfold Kernel.step at hret hok ⊢
  by_cases hh : k.halted = true
  · rw [if_pos hh] at hret
    cases hret
  rw [if_neg hh] at hret hok ⊢
  dsimp only at hret hok ⊢
  cases hi : k.procs[i]? with
  | none => rw [hi] at hret; cases hret
  | some cur =>
    simp only [hi] at hret hok ⊢
    cases hz : cur.zombie with
    | true => rw [hz] at hret; cases hret
    | false =>
      simp only [hz, false_eq_true, if_false, Kernel.call] at hret hok ⊢
      have hsound := sysExec_sound h hi (some img) argv (fun _ h => by cases h; exact himg) hargv hok
      rcases sysExec_cases h (some img) argv (fun _ h => by cases h; exact himg) hargv hok with
        ⟨s, -, heq⟩ | ⟨s, d, brk, -, heq, hnew⟩
      · rw [heq] at hret
        cases hret
      obtain ⟨hbrk, hnone⟩ := hnew img rfl
      rw [heq] at hsound ⊢
      refine ⟨hsound, not_eq_true _ ▸ hh, { cur with pml4 := d, stackLow := USTACK_BASE, brk := brk },
        List.getElem?_set_self (List.getElem?_eq_some_iff.1 hi).1, hz, rfl, hbrk, fun w hw htop hne => ?_⟩
      rw [(leaf_of_mem (s := s) (vmmFreeUserSpace_mem s cur.pml4)).1]
      exact hnone w hw htop hne

/-- **`sys_waitpid`** waits, halts, or drops the address space of the child it reaps. -/
theorem sysWaitpid_cases (h : k.Sound) (hi : k.procs[i]? = some cur) (pid : Int) (status : Nat)
    (hstatus : status + 4 ≤ 2 ^ 39) (hok : (sysWaitpid k i cur pid status).1.vm.pmm.failed = false) :
    (schedulerReap k.procs cur.addr pid = none ∧ sysWaitpid k i cur pid status = (k, .wait)) ∨
    (∃ s, Noxis.Sound s k.roots ∧ sysWaitpid k i cur pid status = ({ k with vm := s, halted := true }, .halt)) ∨
    ∃ z s low, schedulerReap k.procs cur.addr pid = some z ∧ Noxis.Sound s k.roots ∧ sysWaitpid k i cur pid status =
      ({ k with vm := vmmFreeUserSpace s z.pml4, procs := (k.procs.set i { cur with stackLow := low }).erase z },
        .value z.pid) := by
  have ha := mem_kernelRoots hi
  unfold sysWaitpid at hok ⊢
  cases hr : schedulerReap k.procs cur.addr pid with
  | none => exact .inl ⟨rfl, rfl⟩
  | some z =>
    rw [hr] at hok
    simp only at hok ⊢
    have hcopy := Intact.copyOut ha (if status = 0 then [] else storeInt status z.exitCode) k.vm cur.stackLow (.inr h)
      (fun p hp => by
        split at hp
        · cases hp
        · have := mem_fill _ _ p hp
          rw [length_map, length_range] at this
          unfold userPages
          omega)
    rw [kernelCr0_wp _ (by decide)] at hok ⊢
    cases hc : copyOut false cur.pml4 (if status = 0 then [] else storeInt status z.exitCode) k.vm cur.stackLow with | mk s o =>
    rw [hc] at hcopy hok
    cases o with
    | none => exact .inr (.inl ⟨s, Intact.sound hcopy hok, rfl⟩)
    | some low =>
      simp only at hok
      rw [vmmFreeUserSpace_failed] at hok
      exact .inr (.inr ⟨z, s, low, rfl, Intact.sound hcopy hok, rfl⟩)

theorem zombie_of_reap {procs : List Process} {z : Process} {a : Nat} {pid : Int} (hr : schedulerReap procs a pid = some z) :
    z.zombie = true := by
  have := find?_some hr
  simp only [and_eq_true] at this
  exact this.1.1

theorem mem_set_of_ne {z : Process} (hi : k.procs[i]? = some cur) (hz : z ∈ k.procs) (hne : z ≠ cur) (p : Process) :
    z ∈ k.procs.set i p := by
  obtain ⟨j, hj⟩ := getElem?_of_mem hz
  refine mem_of_getElem? (i := j) ?_
  rw [getElem?_set_ne, hj]
  rintro rfl
  exact hne (some.inj (hj.symm.trans hi))

theorem roots_reap (hi : k.procs[i]? = some cur) (hz : cur.zombie = false) {z : Process} {pid : Int}
    (hr : schedulerReap k.procs cur.addr pid = some z) (low : Nat) :
    k.roots.Perm (z.pml4 :: ((k.procs.set i { cur with stackLow := low }).erase z).map Process.pml4) := by
  have hmem := mem_set_of_ne hi (mem_of_find?_eq_some hr) (by rintro rfl; rw [zombie_of_reap hr] at hz; cases hz)
    { cur with stackLow := low }
  have hroots : (k.procs.set i { cur with stackLow := low }).map Process.pml4 = k.roots := roots_set hi rfl
  rw [← hroots]
  exact (perm_cons_erase hmem).map Process.pml4

theorem sysWaitpid_sound (h : k.Sound) (hi : k.procs[i]? = some cur) (hz : cur.zombie = false) (pid : Int) (status : Nat)
    (hstatus : status + 4 ≤ 2 ^ 39) (hok : (sysWaitpid k i cur pid status).1.vm.pmm.failed = false) :
    (sysWaitpid k i cur pid status).1.Sound := by
  rcases sysWaitpid_cases h hi pid status hstatus hok with ⟨-, heq⟩ | ⟨s, hs, heq⟩ | ⟨z, s, low, hr, hs, heq⟩
  · rw [heq]
    exact h
  · rw [heq]
    exact hs
  · have hf := (hs.perm (roots_reap hi hz hr low)).free mem_cons_self
    rw [erase_cons_head] at hf
    rw [heq]
    exact hf

theorem step_cases (k : Kernel) (c : Nat × Call) : (k.step c).1 = k ∨
    ∃ cur, k.procs[c.1]? = some cur ∧ cur.zombie = false ∧ k.step c = k.call c.1 cur c.2 := by
  unfold Kernel.step
  split
  · exact .inl rfl
  split
  · exact .inl rfl
  next cur hi =>
  split
  · exact .inl rfl
  next hz => exact .inr ⟨cur, hi, not_eq_true _ ▸ hz, rfl⟩

/-- **Every step keeps the address spaces and the reference counts in order.** -/
theorem Kernel.Sound.step (h : k.Sound) (c : Nat × Call) (hc : StepOk k c) (hok : (k.step c).1.vm.pmm.failed = false) :
    (k.step c).1.Sound := by
  rcases step_cases k c with heq | ⟨cur, hi, hz, heq⟩
  · rw [heq]
    exact h
  rw [heq] at hok ⊢
  obtain ⟨i, call⟩ := c
  cases call with
  | fork addr => exact sysFork_sound h hi addr (hc cur hi) hok
  | exec prog argv => exact sysExec_sound h hi prog argv hc.1 hc.2 hok
  | exit code => exact sysExit_sound h hi code
  | waitpid pid status => exact sysWaitpid_sound h hi hz pid status hc hok
  | access va w => exact userMode_sound h hi va w hok

end Step

/-! ## Whole runs -/

theorem bootStack_spec {s : Vm} {d : Nat} (h : Intact [d] s) (hok : (bootStack s d).pmm.failed = false) :
    Sound (bootStack s d) [d] ∧ Took s s.allocFrame.2 s.allocFrame.1 ∧
    (∀ f, s.allocFrame.2.pmm.used f = true → (bootStack s d).pmm.used f = true ∧
      (bootStack s d).pmm.refcount f = s.allocFrame.2.pmm.refcount f) ∧
    ∀ v < userPages, ((bootStack s d).leaf d v).map Pte.frame =
      if v = USTACK_BASE / 4096 then some s.allocFrame.1 else (s.leaf d v).map Pte.frame := by
  have hd : d ∈ [d] := mem_singleton.2 rfl
  have hstack : USTACK_BASE / 4096 < userPages := by unfold userPages; decide
  unfold bootStack at hok ⊢
  simp only at hok ⊢
  rw [storeAll_pmm] at hok ⊢
  have hok1 := vmmMapPageInto_failed s.allocFrame.2 _ _ _ _ hok
  have hs := h.sound (pmmAllocFrame_failed hok1)
  obtain ⟨-, htook⟩ := took_alloc hok1
  have hm := map_fresh hs.shape hs.counted hd hstack htook rfl hok
  have m := htook.mapped hs.shape hd hstack (by decide) (by decide) (vmmMapPageInto_true hok)
  have hleaf : ∀ v, s.allocFrame.2.leaf d v = s.leaf d v := fun v => htook.leaf hs.shape hd v
  generalize (vmmMapPageInto s.allocFrame.2 d USTACK_BASE s.allocFrame.1 (PAGE_RW ||| PAGE_USER)).1 = s3 at *
  generalize s.allocFrame.1 = f at *
  have hlen : (wordBytes 0).length = 8 := rfl
  have hbound : ∀ p ∈ fill 4088 (wordBytes 0) ++ fill 4080 (wordBytes 0), p.1 < 4096 := fun p hp => by
    rcases mem_append.1 hp with hp | hp
    · have := mem_fill _ _ p hp
      omega
    · have := mem_fill _ _ p hp
      omega
  obtain ⟨h1, h2⟩ := Sound.storeAll hd hstack _ s3 ⟨hm.shape, hm.counted⟩ hm.leaf hbound
  refine ⟨h1, htook, fun g hg => m.held g hg, fun v hv => ?_⟩
  rw [h2 d hd v]
  split
  · next hvs => rw [hvs, m.self, map_some]
  · next hvs => rw [m.leaf d hd v hv (fun hx => hvs hx.2), hleaf]

theorem boot_sound {s : Vm} (hs : Ready s) {img : Image} (himg : Under img) (addr : Nat)
    (hok : (boot s img addr).vm.pmm.failed = false) : (boot s img addr).Sound := by
  have hsound : Sound s [] := ⟨hs.shape, fun f => Nat.zero_le _⟩
  have hcreate : Intact [(vmmCreateAddressSpace s).1] (vmmCreateAddressSpace s).2 := by
    cases hf : (vmmCreateAddressSpace s).2.pmm.failed with
    | true => exact .inl hf
    | false => exact .inr (hsound.create hf).2.1
  exact (bootStack_spec (Intact.elf64LoadInto hcreate (mem_singleton.2 rfl) himg) hok).1

/-- **No frame is recycled while it is still mapped.**  In every state reached from boot by forks, copy-on-write faults,
execs, exits and reaps in any order, a frame has at least as many references as live leaf entries map it, and
`pmm_alloc_frame` returns none of those. -/
theorem no_live_frame_recycled (s : Vm) (hs : Ready s) (img : Image) (himg : Under img) (addr : Nat) (calls : List (Nat × Call))
    (hok : Always Kernel.step (fun k => k.vm.pmm.failed = false) (boot s img addr) calls)
    (hsteps : ∀ pre c post, calls = pre ++ c :: post → StepOk (run Kernel.step (boot s img addr) pre).1 c) :
    (∀ f, mapCount (run Kernel.step (boot s img addr) calls).1.vm (run Kernel.step (boot s img addr) calls).1.roots f ≤
      (run Kernel.step (boot s img addr) calls).1.vm.pmm.refcount f) ∧
    ∀ p ∈ (run Kernel.step (boot s img addr) calls).1.procs, ∀ v < userPages, ∀ e,
      (run Kernel.step (boot s img addr) calls).1.vm.leaf p.pml4 v = some e →
      (pmmAllocFrame (run Kernel.step (boot s img addr) calls).1.vm.pmm).1 ≠ 0 →
      (pmmAllocFrame (run Kernel.step (boot s img addr) calls).1.vm.pmm).1 ≠ e.frame := by
  have hsound := run_inv (P := Kernel.Sound) (C := fun k c => StepOk k c ∧ (k.step c).1.vm.pmm.failed = false)
    (fun k c hk hc => hk.step c hc.1 hc.2) calls (boot s img addr) (boot_sound hs himg addr hok.head)
    (fun pre c post hp => ⟨hsteps pre c post hp, ?_⟩)
  · generalize (run Kernel.step (boot s img addr) calls).1 = k at *
    refine ⟨hsound.counted, fun p hp v hv e he hf hx => ?_⟩
    have hheld := hsound.shape.leafHeld p.pml4 (mem_map_of_mem hp) v hv e he
    have hu := (pmmAllocFrame_least k.vm.pmm hf).1
    rw [hx, hheld.used] at hu
    cases hu
  · have := hok (pre ++ [c]) ⟨post, by rw [hp, append_assoc, singleton_append]⟩
    rw [run_append] at this
    exact this

end Noxis
