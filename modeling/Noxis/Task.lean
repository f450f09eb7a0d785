import Noxis.Sharers
import Noxis.Sched
import Noxis.Fd
/-!
# Task — `process_t` in full: what fork copies and exec keeps (`proc/process.c`, `proc/syscalls.c`)

`Process` has the fields that the memory of a process depends on; `ProcT` is the whole structure, as it lies in heap memory
that held something else before.  `proc_alloc` initialises it field by field and `sys_fork` then copies the parent's fields, so
what the child inherits depends on every field having been written by one of the two.  `fork_inherits_iff` accounts for all of
them: the one byte that is left to chance is the end of the name.
-/
namespace Noxis

open List Function

/-- `process_t`.  Pointers are addresses, 0 for NULL. -/
structure ProcT where
  pid : Nat
  name : Fin 32 → UInt8
  state : ProcState
  kctxRsp : Nat
  kstackBase : Nat
  kstackTop : Nat
  pml4 : Nat
  uentry : Nat
  ursp : Nat
  stackLow : Nat
  brk : Nat
  cwdIno : Nat
  cwdPath : Fin 128 → UInt8
  parent : Nat
  exitCode : Nat
  quantumRemaining : Nat
  priority : Nat
  next : Nat
  allNext : Nat
  fds : Fin 16 → Fd
  sigPending : BitVec 32
  sigHandler : Fin 32 → Nat
  env : Fin 32 → Fin 160 → UInt8
  envc : Int

def ProcT.proc (p : ProcT) (addr : Nat) : Process :=
  ⟨addr, p.pid, p.pml4, p.stackLow, p.brk, p.parent, p.state == .zombie, p.exitCode⟩

/-! ## proc_alloc -/

/-- The copy loop for the name, with `k` turns left of 31: it stops at the end of the string. -/
def copyName (src : Fin 32 → UInt8) : Nat → (Fin 32 → UInt8) → (Fin 32 → UInt8)
  | 0, dst => dst
  | k + 1, dst =>
    if src ⟨30 - k, by omega⟩ = 0 then dst
    else copyName src k (update dst ⟨30 - k, by omega⟩ (src ⟨30 - k, by omega⟩))

def stdFds (i : Fin 16) : Fd := if i = 0 then ⟨.conIn, 0⟩ else if i = 1 ∨ i = 2 then ⟨.conOut, 0⟩ else .closed

def rootPath (i : Fin 128) : UInt8 := if i = 0 then 47 else 0

/-- `proc_alloc` in a structure that held `junk`, with the kernel stack at `stack`. -/
def procAlloc (junk : ProcT) (name : Fin 32 → UInt8) (stack pid : Nat) : ProcT where
  pid := pid
  name := update (copyName name 31 junk.name) 31 0
  state := .ready
  kctxRsp := 0
  kstackBase := stack
  kstackTop := stack + procKstackSize
  pml4 := 0
  uentry := 0
  ursp := 0
  stackLow := 0
  brk := 0
  cwdIno := 0
  cwdPath := rootPath
  parent := 0
  exitCode := 0
  quantumRemaining := procQuantum
  priority := 1
  next := 0
  allNext := 0
  fds := stdFds
  sigPending := 0
  sigHandler := fun _ => 0
  env := fun i j => if j = 0 then 0 else junk.env i j
  envc := 0

/-! ## fork -/

/-- What `sys_fork` copies into the fresh child; 128 bytes of cloned frame and 56 bytes of save area lie on its stack. -/
def inherit (child parent : ProcT) (parentAddr pml4 : Nat) : ProcT :=
  { child with
    pml4 := pml4
    parent := parentAddr
    stackLow := parent.stackLow
    cwdIno := parent.cwdIno
    brk := parent.brk
    cwdPath := parent.cwdPath
    envc := parent.envc
    env := parent.env
    fds := parent.fds
    sigPending := 0
    sigHandler := parent.sigHandler
    kctxRsp := child.kstackTop - 128 - 56 }

/-- The references `sys_fork` takes on the pipe ends among the first `n` descriptors. -/
def addrefs (fds : Fin 16 → Fd) : Nat → (Nat → Pipe) → (Nat → Pipe)
  | 0, pipes => pipes
  | n + 1, pipes => if h : n < 16 then FdSys.addref (addrefs fds n pipes) (fds ⟨n, h⟩).kind else addrefs fds n pipes

/-- The kernel with the process structures in heap memory: `mem a` is what the structure at address `a` holds, whether or not
it is in use. -/
structure Tasks where
  k : Kernel
  mem : Nat → ProcT
  readyHead : Nat
  readyTail : Nat
  allHead : Nat
  pipes : Nat → Pipe

namespace Tasks

def schedulerAdd (s : Tasks) (p : Nat) : Tasks :=
  let s := { s with mem := update s.mem p { s.mem p with next := 0 } }
  if s.readyTail ≠ 0 then
    { s with mem := update s.mem s.readyTail { s.mem s.readyTail with next := p }, readyTail := p }
  else { s with readyHead := p, readyTail := p }

def schedulerRegister (s : Tasks) (p : Nat) : Tasks :=
  schedulerAdd { s with mem := update s.mem p { s.mem p with allNext := s.allHead }, allHead := p } p

/-- The child of the process at `cur` in the memory at `addr`, up to its registration. -/
def childOf (s : Tasks) (cur addr stack pml4 : Nat) : ProcT :=
  inherit (Noxis.procAlloc (s.mem addr) (s.mem cur).name stack s.k.nextPid) (s.mem cur) cur pml4

/-- `sys_fork` by the process at `cur`; `addr` and `stack` are what `kmalloc` answers in `proc_alloc`, 0 for NULL. -/
def sysFork (s : Tasks) (cur addr stack : Nat) : Tasks × Int :=
  let r := Noxis.sysFork s.k ((s.mem cur).proc cur) (if stack = 0 then 0 else addr)
  if r.1.nextPid = s.k.nextPid then ({ s with k := r.1 }, -1)
  else
    let child := s.childOf cur addr stack ((r.1.procs.head?.map Process.pml4).getD 0)
    (schedulerRegister { s with k := r.1, mem := update s.mem addr child, pipes := addrefs (s.mem cur).fds 16 s.pipes } addr,
      s.k.nextPid)

end Tasks

/-! ## Names as C strings -/

/-- `strlen` of a 32-byte field, 32 when it has no end. -/
def strlen (a : Fin 32 → UInt8) : Nat := (List.ofFn a).findIdx (· == 0)

def SameString (a b : Fin 32 → UInt8) : Prop := strlen a = strlen b ∧ ∀ i : Fin 32, i.val < strlen b → a i = b i

theorem ne_zero_of_lt_strlen {a : Fin 32 → UInt8} {i : Fin 32} (h : i.val < strlen a) : a i ≠ 0 := by
  have hn := not_of_lt_findIdx h
  rw [List.getElem_ofFn] at hn
  exact beq_eq_false_iff_ne.1 hn

theorem strlen_zero {a : Fin 32 → UInt8} (h : strlen a < 32) : a ⟨strlen a, h⟩ = 0 := by
  have hlt : (List.ofFn a).findIdx (· == 0) < (List.ofFn a).length := by
    rw [length_ofFn]
    exact h
  have hn := findIdx_getElem (w := hlt)
  rw [List.getElem_ofFn] at hn
  exact beq_iff_eq.1 hn

theorem strlen_eq {a : Fin 32 → UInt8} {n : Nat} (hn : n < 32) (hne : ∀ i : Fin 32, i.val < n → a i ≠ 0)
    (h0 : a ⟨n, hn⟩ = 0) : strlen a = n := by
  rcases Nat.lt_trichotomy (strlen a) n with hlt | heq | hgt
  · exact absurd (strlen_zero (a := a) (by omega)) (hne _ hlt)
  · exact heq
  · exact absurd h0 (ne_zero_of_lt_strlen (i := ⟨n, hn⟩) hgt)

theorem copyName_eq (src : Fin 32 → UInt8) : ∀ (k : Nat) (dst : Fin 32 → UInt8) (i : Fin 32), k ≤ 31 →
    31 - k ≤ strlen src → copyName src k dst i = if 31 - k ≤ i.val ∧ i.val < min (strlen src) 31 then src i else dst i
  | 0, dst, i, _, _ => by
    rw [copyName, if_neg (by omega)]
  | k + 1, dst, i, hk, hlen => by
    rw [copyName]
    by_cases h0 : src ⟨30 - k, by omega⟩ = 0
    · have hs : strlen src = 30 - k := by
        refine strlen_eq (by omega) (fun j hj => ne_zero_of_lt_strlen (by omega)) h0
      rw [if_pos h0, if_neg (by omega)]
    have hlt : 30 - k < strlen src := by
      by_contra hge
      have hs : strlen src = 30 - k := by omega
      exact h0 (by simpa only [hs] using strlen_zero (a := src) (by omega))
    rw [if_neg h0, copyName_eq src k _ i (by omega) (by omega)]
    by_cases hi : i.val = 30 - k
    · have hi' : i = ⟨30 - k, by omega⟩ := Fin.ext hi
      rw [if_neg (by omega), if_pos (by omega), hi', update_self]
    · have hi' : i ≠ ⟨30 - k, by omega⟩ := fun hx => hi (congrArg Fin.val hx)
      rw [update_of_ne hi']
      exact if_congr (by omega) rfl rfl

/-- What the byte after the copied name was in the recycled memory decides where the new name ends. -/
def NameEnds (junk name : Fin 32 → UInt8) : Prop :=
  strlen name = 31 ∨ ∃ h : strlen name < 31, junk ⟨strlen name, by omega⟩ = 0

theorem sameString_copyName_iff (junk name : Fin 32 → UInt8) :
    SameString (update (copyName name 31 junk) 31 0) name ↔ NameEnds junk name := by
  have hat : ∀ i : Fin 32, i.val < 31 → update (copyName name 31 junk) 31 0 i =
      if i.val < strlen name then name i else junk i := by
    intro i hi
    rw [update_of_ne (fun hx => by rw [hx] at hi; exact absurd hi (by decide)),
      copyName_eq name 31 junk i (le_refl _) (Nat.zero_le _)]
    exact if_congr (by omega) rfl rfl
  have hlast : update (copyName name 31 junk) 31 0 31 = 0 := update_self _ _ _
  generalize update (copyName name 31 junk) 31 0 = c at hat hlast
  constructor
  · rintro ⟨hlen, -⟩
    have hle : strlen c ≤ 31 := by
      by_contra hgt
      exact ne_zero_of_lt_strlen (a := c) (i := 31) (by show 31 < strlen c; omega) hlast
    by_cases h31 : strlen name = 31
    · exact .inl h31
    have hlt : strlen name < 31 := by omega
    have hz := strlen_zero (a := c) (by omega)
    have hc := hat ⟨strlen name, by omega⟩ hlt
    rw [if_neg (lt_irrefl _)] at hc
    refine .inr ⟨hlt, ?_⟩
    rw [← hc, ← hz]
    exact congrArg c (Fin.ext hlen.symm)
  · intro hn
    have hle : strlen name ≤ 31 := by
      rcases hn with h | ⟨h, -⟩ <;> omega
    have hlow : ∀ i : Fin 32, i.val < strlen name → c i = name i := by
      intro i hi
      rw [hat i (by omega), if_pos hi]
    refine ⟨strlen_eq (by omega) (fun i hi => ?_) ?_, hlow⟩
    · rw [hlow i hi]
      exact ne_zero_of_lt_strlen hi
    · rcases hn with h | ⟨h, hj⟩
      · rw [← hlast]
        exact congrArg c (Fin.ext h)
      · rw [hat _ h, if_neg (lt_irrefl _)]
        exact hj

/-! ## What the child has -/

/-- The child at hand inherits from `parent`, the process at `addr`. -/
structure Inherits (parent child : ProcT) (addr : Nat) : Prop where
  name : SameString child.name parent.name
  cwdIno : child.cwdIno = parent.cwdIno
  cwdPath : child.cwdPath = parent.cwdPath
  envc : child.envc = parent.envc
  env : child.env = parent.env
  fds : child.fds = parent.fds
  sigHandler : child.sigHandler = parent.sigHandler
  brk : child.brk = parent.brk
  stackLow : child.stackLow = parent.stackLow
  sigPending : child.sigPending = 0
  parent : child.parent = addr

namespace Tasks

theorem mem_schedulerRegister (s : Tasks) (p a : Nat) : ∃ n l, (s.schedulerRegister p).mem a = { s.mem a with next := n, allNext := l } ∧
    (a ≠ p → a ≠ s.readyTail → n = (s.mem a).next ∧ l = (s.mem a).allNext) := by
  unfold schedulerRegister schedulerAdd
  simp only
  by_cases ht : s.readyTail = 0
  · rw [if_neg (fun hx => hx ht)]
    by_cases hap : a = p
    · subst hap
      exact ⟨0, s.allHead, by simp, fun hx => absurd rfl hx⟩
    · exact ⟨(s.mem a).next, (s.mem a).allNext, by simp [hap], fun _ _ => ⟨rfl, rfl⟩⟩
  · rw [if_pos ht]
    by_cases hat : a = s.readyTail
    · by_cases hap : a = p
      · subst hap
        exact ⟨a, s.allHead, by simp [← hat], fun hx => absurd rfl hx⟩
      · exact ⟨p, (s.mem a).allNext, by simp [← hat, hap], fun _ hx => absurd hat hx⟩
    · by_cases hap : a = p
      · subst hap
        exact ⟨0, s.allHead, by simp [hat], fun hx => absurd rfl hx⟩
      · exact ⟨(s.mem a).next, (s.mem a).allNext, by simp [hat, hap], fun _ _ => ⟨rfl, rfl⟩⟩

theorem sysFork_ok {s : Tasks} {cur addr stack : Nat} (hok : (s.sysFork cur addr stack).2 ≠ -1) : ∃ pml4 k pipes,
    s.sysFork cur addr stack = (schedulerRegister
      { s with k := k, mem := update s.mem addr (s.childOf cur addr stack pml4), pipes := pipes } addr,
        (s.k.nextPid : Int)) := by
  unfold sysFork at hok ⊢
  simp only at hok ⊢
  generalize Noxis.sysFork s.k ((s.mem cur).proc cur) (if stack = 0 then 0 else addr) = r at hok ⊢
  by_cases hpid : r.1.nextPid = s.k.nextPid
  · rw [if_pos hpid] at hok
    exact absurd rfl hok
  · rw [if_neg hpid]
    exact ⟨_, _, _, rfl⟩

theorem mem_sysFork {s : Tasks} {cur addr stack : Nat} (haddr : addr ≠ cur) (htail : s.readyTail ≠ cur)
    (hok : (s.sysFork cur addr stack).2 ≠ -1) : (s.sysFork cur addr stack).1.mem cur = s.mem cur ∧ ∃ pml4 n l,
      (s.sysFork cur addr stack).1.mem addr = { s.childOf cur addr stack pml4 with next := n, allNext := l } := by
  obtain ⟨pml4, k, pipes, heq⟩ := sysFork_ok hok
  rw [heq]
  generalize hs1 :
    ({ s with k := k, mem := update s.mem addr (s.childOf cur addr stack pml4), pipes := pipes } : Tasks) = s1
  have hchild : s1.mem addr = s.childOf cur addr stack pml4 := by
    rw [← hs1]
    exact update_self _ _ _
  have hparent : s1.mem cur = s.mem cur := by
    rw [← hs1]
    exact update_of_ne (Ne.symm haddr) _ _
  have htail1 : s1.readyTail = s.readyTail := by rw [← hs1]
  obtain ⟨n, l, hreg, -⟩ := s1.mem_schedulerRegister addr addr
  obtain ⟨n', l', hreg', hkeep⟩ := s1.mem_schedulerRegister addr cur
  obtain ⟨hn, hl⟩ := hkeep (Ne.symm haddr) (by rw [htail1]; exact Ne.symm htail)
  refine ⟨?_, pml4, n, l, by rw [← hchild]; exact hreg⟩
  simp only
  rw [hreg', hn, hl]
  exact hparent

/-- **What fork inherits.**  A successful fork by the process at `cur`, which is not in the ready queue, in recycled memory at
`addr`: the child inherits everything and the parent is unchanged, exactly when the recycled memory happens to end the name. -/
theorem fork_inherits_iff (s : Tasks) (cur addr stack : Nat) (haddr : addr ≠ cur) (htail : s.readyTail ≠ cur)
    (hok : (s.sysFork cur addr stack).2 ≠ -1) :
    (Inherits (s.mem cur) ((s.sysFork cur addr stack).1.mem addr) cur ∧ (s.sysFork cur addr stack).1.mem cur = s.mem cur) ↔
      NameEnds (s.mem addr).name (s.mem cur).name := by
  obtain ⟨hparent, pml4, n, l, hchild⟩ := mem_sysFork haddr htail hok
  rw [← sameString_copyName_iff, hparent, hchild]
  exact ⟨fun hi => hi.1.name, fun hname => ⟨⟨hname, rfl, rfl, rfl, rfl, rfl, rfl, rfl, rfl, rfl, rfl⟩, rfl⟩⟩

end Tasks

/-! ## A child with a longer name -/

def bareTask (p : Process) : ProcT :=
  { procAlloc ⟨0, fun _ => 0, .ready, 0, 0, 0, 0, 0, 0, 0, 0, 0, fun _ => 0, 0, 0, 0, 0, 0, 0, fun _ => .closed, 0, fun _ => 0,
      fun _ _ => 0, 0⟩ (fun i => if i = 0 then 115 else if i = 1 then 104 else 0) 0x100000 p.pid with
    pml4 := p.pml4, stackLow := p.stackLow, brk := p.brk, parent := p.parent, exitCode := p.exitCode }

def filled (x : UInt8) : ProcT :=
  ⟨0, fun _ => x, .ready, 0, 0, 0, 0, 0, 0, 0, 0, 0, fun _ => x, 0, 0, 0, 0, 0, 0, fun _ => .closed, 0, fun _ => 0, fun _ _ => x, 0⟩

def bareTasks (x : UInt8) : Tasks where
  k := boot startVm bareImage 0x1000
  mem := fun a => if a = 0x1000 then
      ((boot startVm bareImage 0x1000).procs.head?.map bareTask).getD (filled 0) else filled x
  readyHead := 0
  readyTail := 0
  allHead := 0x1000
  pipes := fun _ => ⟨⟨fun _ => 0, 0, 0, 0⟩, 0, 0, false⟩

theorem Tasks.sysFork_of_room {s : Tasks} {cur addr stack i m : Nat} (hs : Shape s.k.vm s.k.roots)
    (hi : s.k.procs[i]? = some ((s.mem cur).proc cur)) (haddr : addr ≠ 0) (hstack : stack ≠ 0)
    (hroom : Room s.k.vm.pmm (m + 3 * pagesFrom s.k.vm (s.mem cur).pml4 0 + 1)) :
    (s.sysFork cur addr stack).2 = s.k.nextPid := by
  have hr := sysFork_room hs hi addr hroom
  obtain ⟨s1, s2, d, -, -, -, -, -, heq⟩ := sysFork_eq hs hi addr hr.failed
  unfold Tasks.sysFork
  simp only
  rw [if_neg hstack, heq, if_neg haddr]
  simp only
  rw [if_neg (by omega)]

theorem bareTasks_fork (x : UInt8) : ((bareTasks x).sysFork 0x1000 0x2000 0x3000).2 = 2 := by
  obtain ⟨F, -, hsh, hroom⟩ := boot_sharing
  obtain ⟨cs, f, hp, hlen, hz, -⟩ := hsh.procs
  obtain rfl := length_eq_zero_iff.1 hlen
  rw [nil_append] at hp
  have haddr : (boot startVm bareImage 0x1000).procs.map Process.addr = [0x1000] := rfl
  have hpid : (boot startVm bareImage 0x1000).nextPid = 2 := rfl
  have hmem : (bareTasks x).mem 0x1000 = bareTask f := by
    unfold bareTasks
    simp only [hp]
    rfl
  have hproc : (bareTask f).proc 0x1000 = f := by
    rw [hp] at haddr
    obtain ⟨a, pid, pml4, low, brk, parent, zombie, code⟩ := f
    simp only [map_cons, map_nil, List.cons.injEq, and_true] at haddr
    simp only at hz
    subst haddr hz
    rfl
  have hi : (bareTasks x).k.procs[0]? = some (((bareTasks x).mem 0x1000).proc 0x1000) := by
    rw [hmem, hproc]
    show (boot startVm bareImage 0x1000).procs[0]? = some f
    rw [hp]
    rfl
  have hone := hsh.leaf f.pml4 (by unfold Kernel.roots; rw [hp]; exact mem_singleton.2 rfl)
  have hpages : pagesFrom (boot startVm bareImage 0x1000).vm f.pml4 0 ≤ 1 := pagesFrom_le_one (v := stackPage) (fun w hw hne => by
    have hw1 := hone w hw
    rw [if_neg hne] at hw1
    exact Option.map_eq_none_iff.1 hw1)
  have hfork := Tasks.sysFork_of_room (s := bareTasks x) (m := 0) hsh.shape hi (by decide : 0x2000 ≠ 0) (by decide : 0x3000 ≠ 0)
    (hroom.mono (by
      rw [hmem]
      show 0 + 3 * pagesFrom (boot startVm bareImage 0x1000).vm f.pml4 0 + 1 ≤ 3570
      omega))
  rw [hfork]
  exact congrArg Nat.cast hpid

theorem bareTasks_name (x : UInt8) : strlen ((bareTasks x).mem 0x1000).name = 2 ∧ ((bareTasks x).mem 0x2000).name = fun _ => x := by
  refine ⟨?_, rfl⟩
  have hsh : ∃ f, (boot startVm bareImage 0x1000).procs = [f] := ⟨_, rfl⟩
  obtain ⟨f, hf⟩ := hsh
  have hmem : ((bareTasks x).mem 0x1000).name = (bareTask f).name := by
    unfold bareTasks
    simp only [hf]
    rfl
  rw [hmem]
  show strlen (update (copyName (fun i => if i = 0 then 115 else if i = 1 then 104 else 0) 31 fun _ => 0) 31 0) = 2
  decide

/-- In memory that held zeros the child of `sh` is called `sh`. -/
theorem fork_inherits_zeroed : ((bareTasks 0).sysFork 0x1000 0x2000 0x3000).2 = 2 ∧
    Inherits ((bareTasks 0).mem 0x1000) (((bareTasks 0).sysFork 0x1000 0x2000 0x3000).1.mem 0x2000) 0x1000 := by
  have hok := bareTasks_fork 0
  obtain ⟨hlen, hjunk⟩ := bareTasks_name 0
  refine ⟨hok, ((Tasks.fork_inherits_iff (bareTasks 0) 0x1000 0x2000 0x3000 (by decide) (by decide) (by rw [hok]; decide)).2 ?_).1⟩
  refine .inr ⟨by omega, ?_⟩
  rw [hjunk]

/-- In memory that held `A`s the name of the child of `sh` goes on after `sh`. -/
theorem fork_name_runs_on : ((bareTasks 65).sysFork 0x1000 0x2000 0x3000).2 = 2 ∧ strlen ((bareTasks 65).mem 0x1000).name = 2 ∧
    ¬ SameString (((bareTasks 65).sysFork 0x1000 0x2000 0x3000).1.mem 0x2000).name ((bareTasks 65).mem 0x1000).name := by
  have hok := bareTasks_fork 65
  obtain ⟨hlen, hjunk⟩ := bareTasks_name 65
  have hne : ((bareTasks 65).sysFork 0x1000 0x2000 0x3000).2 ≠ -1 := by
    rw [hok]
    decide
  obtain ⟨-, pml4, n, l, hchild⟩ := Tasks.mem_sysFork (by decide) (by decide) hne
  refine ⟨hok, hlen, ?_⟩
  rw [hchild]
  show ¬ SameString (update (copyName ((bareTasks 65).mem 0x1000).name 31 ((bareTasks 65).mem 0x2000).name) 31 0) _
  rw [sameString_copyName_iff, hjunk]
  rintro (h31 | ⟨hlt, hz⟩)
  · omega
  · have h65 : (65 : UInt8) = 0 := hz
    cases h65

end Noxis
