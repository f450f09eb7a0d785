import Noxis.Process
import Noxis.Sched
/-!
# Loaded — the address space in CR3

`Cpu` puts the scheduler on top of the memory of the processes: the running process is `g_current`, `scheduler_yield` reloads
CR3 when the next process has another PML4, `sys_exec` reloads it in place, and `sys_waitpid` releases the page tables, the
kernel stack and the structure of the child it reaps.  A step answers what it released: the PML4 frames it passed to
`vmm_free_user_space` and the blocks it passed to `kfree`.

`Tied` is what the scheduler's lists have to do with the list of processes.  As long as the address spaces are in order
(`Kernel.Sound`), CR3 holds the PML4 of the running process and no step releases a page table or a kernel stack of a process
that can still run (`loaded_space_live`).
-/
namespace Noxis

open List Function Radix Linked Process
open Sched (idle)

/-- `kstack` is the `kstack_base` of each process, `stackBlocks` the kernel stacks allocated. -/
structure Cpu where
  k : Kernel
  sched : Sched
  cr3 : Nat
  kstack : Nat → Nat
  stackBlocks : Finset Nat

structure Released where
  roots : List Nat
  blocks : List Nat

namespace Cpu

/-- The `pml4` field of the process at `a`: 0 for the idle context and for kernel threads. -/
def pml4Of (m : Cpu) (a : Nat) : Nat :=
  match m.k.procs.find? (fun p => p.addr == a) with
  | some p => p.pml4
  | none => 0

def rootOf (m : Cpu) (a : Nat) : Nat := if m.pml4Of a ≠ 0 then m.pml4Of a else m.k.vm.kpml4

/-- `vmm_switch` at the end of `scheduler_yield`, which leaves the scheduler in `s`. -/
def switch (m : Cpu) (s : Sched) : Cpu :=
  { m with sched := s, cr3 := if m.pml4Of s.current ≠ m.pml4Of m.sched.current then m.rootOf s.current else m.cr3 }

def yield (m : Cpu) : Cpu := m.switch m.sched.schedulerYield

/-- What the running process does next.  `fork` carries the two blocks `proc_alloc` gets, 0 for a failed `proc_alloc`. -/
inductive Act where
  | fork (addr stack : Nat)
  | exec (prog : Option Image) (argv : List (List UInt8))
  | exit (code : Nat)
  | waitpid (pid : Int) (status : Nat)
  | access (va : Nat) (w : Option UInt8)
  | yield

def Act.toCall : Act → Option Call
  | .fork addr _ => some (.fork addr)
  | .exec prog argv => some (.exec prog argv)
  | .exit code => some (.exit code)
  | .waitpid pid status => some (.waitpid pid status)
  | .access va w => some (.access va w)
  | .yield => none

def running (m : Cpu) : Option (Nat × Process) :=
  (m.k.procs.findIdx? (fun p => p.addr == m.sched.current)).bind (fun i => (m.k.procs[i]?).map (fun p => (i, p)))

def fresh (m : Cpu) (addr stack : Nat) : Bool :=
  addr != stack && !decide (addr ∈ m.sched.structs ∪ m.stackBlocks) && !decide (stack ∈ m.sched.structs ∪ m.stackBlocks)

/-- `sys_fork`; it has registered a child when it has used up a pid. -/
def fork (m : Cpu) (cur : Process) (addr stack : Nat) : Cpu :=
  let r := sysFork m.k cur addr
  if r.1.nextPid = m.k.nextPid then { m with k := r.1 }
  else
    { m with
      k := r.1
      sched := (m.sched.procAlloc addr (some m.sched.current) true).schedulerRegister addr
      kstack := update m.kstack addr stack
      stackBlocks := insert stack m.stackBlocks }

def exec (m : Cpu) (i : Nat) (cur : Process) (prog : Option Image) (argv : List (List UInt8)) : Cpu × Released :=
  let r := sysExec m.k i cur prog argv
  let m' := { m with k := r.1 }
  if r.2 = .value 0 then ({ m' with cr3 := m'.pml4Of m.sched.current }, ⟨[cur.pml4], []⟩) else (m', ⟨[], []⟩)

def exit (m : Cpu) (i : Nat) (cur : Process) (code : Nat) : Cpu :=
  ({ m with k := (sysExit m.k i cur code).1 } : Cpu).switch (m.sched.schedulerExit code)

/-- One turn of the loop of `sys_waitpid`. -/
def waitpid (m : Cpu) (i : Nat) (cur : Process) (pid : Int) (status : Nat) : Cpu × Released :=
  let r := sysWaitpid m.k i cur pid status
  match r.2, schedulerReap m.k.procs cur.addr pid with
  | .wait, _ => (m.yield, ⟨[], []⟩)
  | .value _, some z =>
    match m.sched.schedulerRemove z.addr with
    | none => ({ m with k := r.1 }, ⟨[], []⟩)
    | some s =>
      ({ m with
          k := r.1
          sched := { s with structs := s.structs.erase z.addr }
          stackBlocks := m.stackBlocks.erase (m.kstack z.addr) }, ⟨[z.pml4], [m.kstack z.addr, z.addr]⟩)
  | _, _ => ({ m with k := r.1 }, ⟨[], []⟩)

def call (m : Cpu) (i : Nat) (cur : Process) : Act → Cpu × Released
  | .fork addr stack => (if addr = 0 ∨ m.fresh addr stack then m.fork cur addr stack else m, ⟨[], []⟩)
  | .exec prog argv => m.exec i cur prog argv
  | .exit code => (m.exit i cur code, ⟨[], []⟩)
  | .waitpid pid status => m.waitpid i cur pid status
  | .access va w => ({ m with k := (userMode m.k i cur va w).1 }, ⟨[], []⟩)
  | .yield => (m.yield, ⟨[], []⟩)

def step (m : Cpu) (a : Act) : Cpu × Released :=
  if m.k.halted then (m, ⟨[], []⟩) else
  match m.running, a with
  | _, .yield => (m.yield, ⟨[], []⟩)
  | none, _ => (m, ⟨[], []⟩)
  | some (i, cur), a => m.call i cur a

/-- `kernel_main`: the shell at `up` with the program `img` and the heartbeat thread at `hb` are registered. -/
def spawned (s : Vm) (img : Image) (up hb stackUp stackHb : Nat) : Cpu where
  k := { Noxis.boot s img up with nextPid := 3 }
  sched := Sched.spawned up hb
  cr3 := (Noxis.boot s img up).vm.kpml4
  kstack := update (update (fun _ => 0) up stackUp) hb stackHb
  stackBlocks := {stackUp, stackHb}

def boot (s : Vm) (img : Image) (up hb stackUp stackHb : Nat) : Cpu := (spawned s img up hb stackUp stackHb).yield

end Cpu

/-! ## The processes and the scheduler's lists -/

def Process.key (p : Process) : Nat × Bool := (p.addr, p.zombie)

def Kernel.keys (k : Kernel) : List (Nat × Bool) := k.procs.map Process.key

section Keys

variable {k : Kernel} {i : Nat} {cur : Process} {p : Process}

theorem split_at {L : List Process} (hi : L[i]? = some p) :
    ∃ l1 l2, L = l1 ++ p :: l2 ∧ ∀ p', L.set i p' = l1 ++ p' :: l2 := by
  obtain ⟨hlt, rfl⟩ := List.getElem?_eq_some_iff.1 hi
  refine ⟨L.take i, L.drop (i + 1), ?_, fun p' => ?_⟩
  · rw [getElem_cons_drop, take_append_drop]
  · rw [set_eq_take_append_cons_drop, if_pos hlt]

theorem keys_set_same (hi : k.procs[i]? = some cur) (hp : p.key = cur.key) : (k.procs.set i p).map key = k.keys := by
  obtain ⟨l1, l2, hL, hset⟩ := split_at hi
  unfold Kernel.keys
  rw [hset, hL, map_append, map_append, map_cons, map_cons, hp]

theorem sysFork_keys (k : Kernel) (cur : Process) (addr : Nat) :
    let r := sysFork k cur addr
    (r.1.nextPid = k.nextPid ∧ r.1.keys = k.keys) ∨
    (r.1.nextPid = k.nextPid + 1 ∧ addr ≠ 0 ∧ r.1.keys = (addr, false) :: k.keys) := by
  unfold sysFork
  simp only
  split
  · exact .inl ⟨rfl, rfl⟩
  split
  · exact .inl ⟨rfl, rfl⟩
  · split
    · exact .inl ⟨rfl, rfl⟩
    · next h => exact .inr ⟨rfl, h, rfl⟩

theorem sysExec_keys (hi : k.procs[i]? = some cur) (prog : Option Image) (argv : List (List UInt8)) :
    (sysExec k i cur prog argv).1.keys = k.keys := by
  unfold sysExec
  cases prog with
  | none => rfl
  | some img =>
    simp only
    split
    · rfl
    split
    · rfl
    · split
      · rfl
      · exact keys_set_same hi rfl

theorem userMode_keys (hi : k.procs[i]? = some cur) (va : Nat) (w : Option UInt8) :
    (userMode k i cur va w).1.keys = k.keys := by
  unfold userMode
  split
  · rfl
  · cases w with
    | none => exact keys_set_same hi rfl
    | some b => exact keys_set_same hi rfl

theorem sysWaitpid_keys (hi : k.procs[i]? = some cur) (hz : cur.zombie = false) (pid : Int) (status : Nat) :
    let r := sysWaitpid k i cur pid status
    (r.2 = .wait ∧ r.1 = k) ∨ (r.2 = .halt ∧ r.1.keys = k.keys) ∨ ∃ z ∈ k.procs, z.zombie = true ∧
      schedulerReap k.procs cur.addr pid = some z ∧ r.2 = .value z.pid ∧ k.keys.Perm (z.key :: r.1.keys) := by
  unfold sysWaitpid
  cases hr : schedulerReap k.procs cur.addr pid with
  | none => exact .inl ⟨rfl, rfl⟩
  | some z =>
    have hmem := mem_of_find?_eq_some hr
    have hzz := zombie_of_reap hr
    simp only
    split
    · exact .inr (.inl ⟨rfl, rfl⟩)
    next s low hc =>
    refine .inr (.inr ⟨z, hmem, hzz, rfl, rfl, ?_⟩)
    have hmem' := mem_set_of_ne hi hmem (by rintro rfl; rw [hzz] at hz; cases hz) { cur with stackLow := low }
    have hp := (perm_cons_erase hmem').map key
    rw [keys_set_same hi (p := { cur with stackLow := low }) rfl] at hp
    exact hp

end Keys

/-- The scheduler's lists hold the user processes and the heartbeat thread `hb`, zombies are zombies on both sides, and
every process of the global list has a kernel stack of its own. -/
structure Tied (m : Cpu) (hb : Nat) (q all : List Nat) : Prop where
  rep : m.sched.Rep q all
  listed : ∀ a, a ∈ all ↔ a = hb ∨ a ∈ m.k.keys.map Prod.fst
  addrs : (m.k.keys.map Prod.fst).Nodup
  thread : hb ∉ m.k.keys.map Prod.fst
  zombie : ∀ x ∈ m.k.keys, (x.2 = true ↔ m.sched.state x.1 = .zombie)
  awake : m.sched.state hb ≠ .zombie
  users : ∀ x ∈ m.k.keys, m.sched.user x.1 = true
  stack : ∀ a ∈ all, m.kstack a ∈ m.stackBlocks
  stackInj : ∀ a ∈ all, ∀ b ∈ all, m.kstack a = m.kstack b → a = b
  apart : Disjoint m.sched.structs m.stackBlocks
  idleStack : m.kstack idle = 0

namespace Tied

variable {m : Cpu} {hb : Nat} {q all : List Nat}

theorem congr_keys (h : Tied m hb q all) {k' : Kernel} (hk : k'.keys = m.k.keys) (r : Nat) :
    Tied { m with k := k', cr3 := r } hb q all :=
  ⟨h.rep, by rw [hk]; exact h.listed, by rw [hk]; exact h.addrs, by rw [hk]; exact h.thread, by rw [hk]; exact h.zombie, h.awake,
    by rw [hk]; exact h.users, h.stack, h.stackInj, h.apart, h.idleStack⟩

theorem mem_keys {p : Process} (hp : p ∈ m.k.procs) : p.key ∈ m.k.keys := mem_map_of_mem hp

variable {cur : Process} {i : Nat}

section
variable (h : Tied m hb q all)
include h

theorem running_spec (hr : m.running = some (i, cur)) :
    m.k.procs[i]? = some cur ∧ cur.addr = m.sched.current ∧ cur.zombie = false ∧ m.sched.current ≠ idle := by
  unfold Cpu.running at hr
  obtain ⟨j, hj, hr⟩ := Option.bind_eq_some_iff.1 hr
  obtain ⟨p, hp, heq⟩ := Option.map_eq_some_iff.1 hr
  obtain ⟨rfl, rfl⟩ : j = i ∧ p = cur := by cases heq; exact ⟨rfl, rfl⟩
  obtain ⟨hlt, hpj, -⟩ := findIdx?_eq_some_iff_getElem.1 hj
  have hget : m.k.procs[j] = p := by
    rw [getElem?_eq_getElem hlt] at hp
    exact Option.some.inj hp
  rw [hget, beq_iff_eq] at hpj
  have hkey := mem_keys (mem_of_getElem? hp)
  refine ⟨hp, hpj, ?_, fun hx => ?_⟩
  · by_contra hz
    have hzz := (h.zombie _ hkey).1 (Bool.not_eq_false _ ▸ hz)
    exact h.rep.not_zombie mem_cons_self (hpj ▸ hzz)
  · have hu : m.sched.user p.addr = true := h.users _ hkey
    rw [hpj, hx, h.rep.kernel] at hu
    cases hu

theorem switch {s : Sched} {q' : List Nat} (hr : s.Rep q' all) (hk : Sched.Kept m.sched s)
    (hz : ∀ p, s.state p = .zombie ↔ m.sched.state p = .zombie) : Tied (m.switch s) hb q' all where
  rep := hr
  listed := h.listed
  addrs := h.addrs
  thread := h.thread
  zombie := fun x hx => (h.zombie x hx).trans (hz x.1).symm
  awake := fun hx => h.awake ((hz hb).1 hx)
  users := fun x hx => (congrFun hk.user x.1).trans (h.users x hx)
  stack := h.stack
  stackInj := h.stackInj
  apart := by
    have hs : (m.switch s).sched.structs = m.sched.structs := hk.structs
    rw [hs]
    exact h.apart
  idleStack := h.idleStack

theorem yield : ∃ q', Tied m.yield hb q' all := by
  cases q with
  | nil => exact ⟨[], h.switch (by rw [h.rep.yield_nil]; exact h.rep) (Sched.yield_kept _) (fun p => by rw [h.rep.yield_nil])⟩
  | cons n q =>
    obtain ⟨hr, -, hz⟩ := h.rep.yield_spec
    exact ⟨_, h.switch hr (Sched.yield_kept _) hz⟩

theorem fork (cur : Process) {addr stack : Nat} (hf : addr = 0 ∨ m.fresh addr stack = true)
    (hne : m.sched.current ≠ idle) : ∃ q' all', Tied (m.fork cur addr stack) hb q' all' := by
  unfold Cpu.fork
  simp only
  rcases sysFork_keys m.k cur addr with ⟨hn, hk⟩ | ⟨hn, h0, hk⟩
  · rw [if_pos hn]
    exact ⟨q, all, h.congr_keys hk m.cr3⟩
  rw [if_neg (by omega)]
  have hf := hf.resolve_left h0
  unfold Cpu.fresh at hf
  simp only [Bool.and_eq_true, bne_iff_ne, ne_eq, Bool.not_eq_true', decide_eq_false_iff_not, Finset.mem_union, not_or] at hf
  obtain ⟨⟨hne', ha1, ha2⟩, hs1, hs2⟩ := hf
  have hcur : m.sched.current ∈ all := ((h.rep.mem _).1 mem_cons_self).resolve_left hne |>.1
  have hpos : 0 < m.sched.nextPid := by have := h.rep.pids _ hcur; omega
  set r := some m.sched.current
  have hr := h.rep.spawn_rep ha1 hpos r true
  have haa : addr ∉ all := fun hx => ha1 (h.rep.alloc _ (mem_cons_of_mem _ hx))
  have hai : addr ≠ idle := fun hx => ha1 (hx ▸ h.rep.alloc _ mem_cons_self)
  have hkf : addr ∉ m.k.keys.map Prod.fst := fun hx => haa ((h.listed addr).2 (.inr hx))
  have hne2 : ∀ x ∈ m.k.keys, x.1 ≠ addr := fun x hx he => hkf (he ▸ mem_map_of_mem hx)
  have hhb : hb ≠ addr := fun hx => haa (hx ▸ (h.listed hb).2 (.inl rfl))
  obtain ⟨-, hst, -, -, hus, hstr⟩ := Sched.register_kept m.sched addr r true
  generalize (m.sched.procAlloc addr r true).schedulerRegister addr = s' at *
  refine ⟨_, _, hr, fun a => ?_, ?_, ?_, fun x hx => ?_, ?_, fun x hx => ?_, fun a ha => ?_, fun a ha b hb' hab => ?_, ?_, ?_⟩
  · simp only [hk, mem_cons, map_cons, h.listed a]
    tauto
  · simp only [hk, map_cons, nodup_cons]
    exact ⟨hkf, h.addrs⟩
  · simp only [hk, map_cons, mem_cons, not_or]
    exact ⟨hhb, h.thread⟩
  · rw [show (sysFork m.k cur addr).1.keys = _ from hk] at hx
    simp only [hst]
    rcases mem_cons.1 hx with rfl | hx
    · simp only [update_self]
      decide
    · rw [update_of_ne (hne2 x hx)]
      exact h.zombie x hx
  · simp only [hst]
    rw [update_of_ne hhb]
    exact h.awake
  · rw [show (sysFork m.k cur addr).1.keys = _ from hk] at hx
    simp only [hus]
    rcases mem_cons.1 hx with rfl | hx
    · simp only [update_self]
    · rw [update_of_ne (hne2 x hx)]
      exact h.users x hx
  · simp only [Finset.mem_insert]
    rcases mem_cons.1 ha with rfl | ha
    · exact .inl (update_self ..)
    · rw [update_of_ne (fun (hx : a = addr) => haa (hx ▸ ha))]
      exact .inr (h.stack a ha)
  · simp only at hab
    have hold : ∀ c ∈ all, update m.kstack addr stack c = m.kstack c ∧ m.kstack c ≠ stack := fun c hc =>
      ⟨update_of_ne (fun (hx : c = addr) => haa (hx ▸ hc)) _ _, fun hx => hs2 (hx ▸ h.stack c hc)⟩
    rcases mem_cons.1 ha with hae | hae <;> rcases mem_cons.1 hb' with hbe | hbe
    · exact hae.trans hbe.symm
    · rw [hae, update_self, (hold b hbe).1] at hab
      exact absurd hab.symm (hold b hbe).2
    · rw [hbe, update_self, (hold a hae).1] at hab
      exact absurd hab (hold a hae).2
    · rw [(hold a hae).1, (hold b hbe).1] at hab
      exact h.stackInj a hae b hbe hab
  · simp only [hstr]
    rw [Finset.disjoint_insert_left, Finset.disjoint_insert_right]
    refine ⟨?_, hs1, h.apart⟩
    rw [Finset.mem_insert, not_or]
    exact ⟨hne', ha2⟩
  · simp only
    rw [update_of_ne (Ne.symm hai)]
    exact h.idleStack

theorem exit (hr : m.running = some (i, cur)) (code : Nat) : ∃ q', Tied (m.exit i cur code) hb q' all := by
  obtain ⟨hi, hcur, -, hne⟩ := h.running_spec hr
  obtain ⟨n, q1, rfl⟩ := h.rep.queue_ne_nil hne
  obtain ⟨hrep, -, hk, hz⟩ := h.rep.exit_spec hne (code : Int)
  have hckey := mem_keys (mem_of_getElem? hi)
  obtain ⟨l1, l2, hL, hset⟩ := split_at hi
  -- the key of the process that exits is the only one that changes
  have hold : m.k.keys = l1.map key ++ (cur.addr, cur.zombie) :: l2.map key := by
    unfold Kernel.keys
    rw [hL, map_append, map_cons]
    rfl
  have hnew : (m.exit i cur code).k.keys = l1.map key ++ (cur.addr, true) :: l2.map key := by
    show ((m.k.procs.set i _).map key) = _
    rw [hset, map_append, map_cons]
    rfl
  have hfst : (m.exit i cur code).k.keys.map Prod.fst = m.k.keys.map Prod.fst := by
    rw [hnew, hold, map_append, map_append, map_cons, map_cons]
  have hother : ∀ x ∈ (m.exit i cur code).k.keys, x = (cur.addr, true) ∨ x ∈ m.k.keys ∧ x.1 ≠ m.sched.current := by
    intro x hx
    have hnd := h.addrs
    rw [hold, map_append, map_cons, nodup_append, nodup_cons] at hnd
    rw [hnew, mem_append, mem_cons] at hx
    rw [hold, ← hcur, mem_append, mem_cons]
    rcases hx with hx | hx | hx
    · exact .inr ⟨.inl hx, fun he => hnd.2.2 x.1 (mem_map_of_mem hx) cur.addr mem_cons_self he⟩
    · exact .inl hx
    · exact .inr ⟨.inr (.inr hx), fun he => hnd.2.1.1 (mem_map.2 ⟨x, hx, he⟩)⟩
  refine ⟨q1, hrep, by rw [hfst]; exact h.listed, by rw [hfst]; exact h.addrs, by rw [hfst]; exact h.thread, fun x hx => ?_,
    fun hx => ?_, fun x hx => ?_, h.stack, h.stackInj, ?_, h.idleStack⟩
  · refine Iff.trans ?_ (hz x.1).symm
    rcases hother x hx with rfl | ⟨hx, hne'⟩
    · exact ⟨fun _ => .inl hcur, fun _ => rfl⟩
    · rw [or_iff_right hne']
      exact h.zombie x hx
  · rcases (hz hb).1 hx with hx | hx
    · exact h.thread (mem_map.2 ⟨cur.key, hckey, hcur.trans hx.symm⟩)
    · exact h.awake hx
  · refine (congrFun hk.user x.1).trans ?_
    rcases hother x hx with rfl | ⟨hx, -⟩
    · exact h.users cur.key hckey
    · exact h.users x hx
  · show Disjoint (m.sched.schedulerExit code).structs _
    rw [hk.structs]
    exact h.apart

theorem waitpid (hr : m.running = some (i, cur)) (pid : Int) (status : Nat) :
    ∃ q' all', Tied (m.waitpid i cur pid status).1 hb q' all' := by
  obtain ⟨hi, hcur, hz, hne⟩ := h.running_spec hr
  unfold Cpu.waitpid
  simp only
  rcases sysWaitpid_keys hi hz pid status with ⟨h1, h2⟩ | ⟨h1, h2⟩ | ⟨z, hzm, hzz, hre, h1, hp⟩
  · rw [h1]
    obtain ⟨q', hy⟩ := h.yield
    exact ⟨q', all, hy⟩
  · rw [h1]
    exact ⟨q, all, h.congr_keys h2 m.cr3⟩
  · rw [h1, hre]
    have hzk := mem_keys hzm
    have hzall : z.addr ∈ all := (h.listed _).2 (.inr (mem_map_of_mem hzk))
    obtain ⟨s1, all', hrem, hrep, hk, hst, hc, hmem⟩ := h.rep.remove hzall ((h.zombie _ hzk).1 hzz)
    have hfst := hp.map Prod.fst
    rw [map_cons] at hfst
    have hnd := hfst.nodup_iff.1 h.addrs
    have hsub : ∀ x ∈ (sysWaitpid m.k i cur pid status).1.keys, x ∈ m.k.keys := fun x hx =>
      hp.mem_iff.2 (mem_cons_of_mem _ hx)
    simp only [hrem]
    refine ⟨q, all', hrep, fun a => ?_, (nodup_cons.1 hnd).2, fun hx => h.thread (hfst.mem_iff.2 (mem_cons_of_mem _ hx)),
      fun x hx => ?_, ?_, fun x hx => ?_, fun a ha => ?_, fun a ha b hb' => ?_, ?_, h.idleStack⟩
    · rw [hmem, h.listed, hfst.mem_iff, mem_cons]
      have hzhb : z.addr ≠ hb := fun hx => h.thread (hx ▸ mem_map_of_mem hzk)
      have hzn : z.addr ∉ (sysWaitpid m.k i cur pid status).1.keys.map Prod.fst := (nodup_cons.1 hnd).1
      constructor
      · rintro ⟨ha | ha | ha, hne'⟩
        · exact .inl ha
        · exact absurd ha hne'
        · exact .inr ha
      · rintro (ha | ha)
        · exact ⟨.inl ha, fun hx => hzhb (hx.symm.trans ha)⟩
        · exact ⟨.inr (.inr ha), fun hx => hzn (hx ▸ ha)⟩
    · simp only [hst]
      exact h.zombie x (hsub x hx)
    · simp only [hst]
      exact h.awake
    · exact (congrFun hk.user x.1).trans (h.users x (hsub x hx))
    · obtain ⟨ha, hne'⟩ := (hmem a).1 ha
      exact Finset.mem_erase.2 ⟨fun hx => hne' (h.stackInj a ha z.addr hzall hx), h.stack a ha⟩
    · exact h.stackInj a ((hmem a).1 ha).1 b ((hmem b).1 hb').1
    · have hstr : s1.structs = m.sched.structs := hk.structs
      simp only [hstr]
      exact Finset.disjoint_of_subset_left (Finset.erase_subset _ _)
        (Finset.disjoint_of_subset_right (Finset.erase_subset _ _) h.apart)

/-- **Every step keeps the lists together**, whatever it does to memory. -/
theorem step (a : Cpu.Act) : ∃ q' all', Tied (m.step a).1 hb q' all' := by
  have hyield : ∃ q' all', Tied m.yield hb q' all' := by
    obtain ⟨q', hy⟩ := h.yield
    exact ⟨q', all, hy⟩
  unfold Cpu.step
  split
  · exact ⟨q, all, h⟩
  cases hr : m.running with
  | none =>
    cases a with
    | yield => exact hyield
    | _ => exact ⟨q, all, h⟩
  | some ic =>
    obtain ⟨i, cur⟩ := ic
    obtain ⟨hi, -, -, hne⟩ := h.running_spec hr
    cases a with
    | yield => exact hyield
    | fork addr stack =>
      simp only [Cpu.call]
      split
      · next hf => exact h.fork cur hf hne
      · exact ⟨q, all, h⟩
    | exec prog argv =>
      simp only [Cpu.call, Cpu.exec]
      split
      · exact ⟨q, all, h.congr_keys (sysExec_keys hi prog argv) _⟩
      · exact ⟨q, all, h.congr_keys (sysExec_keys hi prog argv) m.cr3⟩
    | exit code =>
      obtain ⟨q', ht⟩ := h.exit hr code
      exact ⟨q', all, ht⟩
    | waitpid pid status => exact h.waitpid hr pid status
    | access va w => exact ⟨q, all, h.congr_keys (userMode_keys hi va w) m.cr3⟩

end

end Tied

/-! ## The loaded address space -/

namespace Cpu

/-- **Nothing that a process needs to run is among what was released**: for the running process and every process in the
ready queue, neither its page tables nor its kernel stack. -/
def Live (m : Cpu) (r : Released) : Prop :=
  ∃ q, Chain m.sched.next m.sched.readyHead q ∧ ∀ a ∈ m.sched.current :: q,
    (∀ root ∈ r.roots, m.k.vm.kpml4 ∉ freeList m.k.vm root ∧
      (m.pml4Of a ≠ 0 → ∀ p t, TabPath p → follow m.k.vm.child (m.pml4Of a) p = some t → t ∉ freeList m.k.vm root)) ∧
    ∀ b ∈ r.blocks, b ≠ m.kstack a

def ActOk (m : Cpu) (a : Act) : Prop := ∀ i cur c, m.running = some (i, cur) → a.toCall = some c → StepOk m.k (i, c)

variable {m : Cpu} {p : Process}

theorem pml4Of_eq (hnd : (m.k.keys.map Prod.fst).Nodup) (hp : p ∈ m.k.procs) : m.pml4Of p.addr = p.pml4 := by
  unfold pml4Of
  have hf : m.k.procs.find? (fun x => x.addr == p.addr) = some p := by
    have hmap : (m.k.procs.map addr).Nodup := by
      have he : m.k.keys.map Prod.fst = m.k.procs.map addr := by
        unfold Kernel.keys
        rw [map_map]
        rfl
      rw [← he]
      exact hnd
    cases hf : m.k.procs.find? (fun x => x.addr == p.addr) with
    | none => exact absurd (find?_eq_none.1 hf p hp) (by simp)
    | some x =>
      have hx : x.addr = p.addr := by simpa using find?_some hf
      rw [inj_on_of_nodup_map hmap (mem_of_find?_eq_some hf) hp hx]
  rw [hf]

theorem mem_of_pml4Of {a : Nat} (h : m.pml4Of a ≠ 0) : ∃ p ∈ m.k.procs, p.addr = a ∧ m.pml4Of a = p.pml4 := by
  unfold pml4Of at h ⊢
  cases hf : m.k.procs.find? (fun x => x.addr == a) with
  | none => rw [hf] at h; exact absurd rfl h
  | some p => exact ⟨p, mem_of_find?_eq_some hf, by simpa using find?_some hf, rfl⟩

theorem rootOf_eq (hnd : (m.k.keys.map Prod.fst).Nodup) (hs : m.k.Sound) (hp : p ∈ m.k.procs) : m.rootOf p.addr = p.pml4 := by
  have h0 := (hs.shape.root p.pml4 (mem_map_of_mem hp)).1
  unfold rootOf
  rw [pml4Of_eq hnd hp, if_pos h0]

theorem switch_cr3 (s : Sched) (h : m.cr3 = m.rootOf m.sched.current) : (m.switch s).cr3 = (m.switch s).rootOf s.current := by
  show (if m.pml4Of s.current ≠ m.pml4Of m.sched.current then m.rootOf s.current else m.cr3) = m.rootOf s.current
  split
  · rfl
  next he =>
  rw [not_not] at he
  rw [h]
  unfold rootOf
  rw [he]

theorem pml4Of_congr {k' : Kernel} (h : k'.procs.map (fun p => (p.addr, p.pml4)) = m.k.procs.map (fun p => (p.addr, p.pml4)))
    (a : Nat) : ({ m with k := k' } : Cpu).pml4Of a = m.pml4Of a := by
  have hfind : ∀ L : List Process, (match L.find? (fun p => p.addr == a) with | some p => p.pml4 | none => 0) =
      match (L.map (fun p => (p.addr, p.pml4))).find? (fun x => x.1 == a) with | some x => x.2 | none => 0 := by
    intro L
    rw [find?_map]
    cases hf : L.find? (fun p => p.addr == a) with
    | none => rw [show L.find? ((fun x => x.1 == a) ∘ fun p => (p.addr, p.pml4)) = none from hf]; rfl
    | some p => rw [show L.find? ((fun x => x.1 == a) ∘ fun p => (p.addr, p.pml4)) = some p from hf]; rfl
  unfold pml4Of
  rw [hfind, hfind, h]

theorem tables_live {s : Vm} {R : List Nat} {root : Nat} (hs : Shape s R) (hroot : root ∈ R)
    (hvm : m.k.vm = vmmFreeUserSpace s root) (hsub : ∀ b ∈ m.k.roots, b ∈ R ∧ b ≠ root) :
    m.k.vm.kpml4 ∉ freeList m.k.vm root ∧ ∀ a, m.pml4Of a ≠ 0 → ∀ p t, TabPath p →
      follow m.k.vm.child (m.pml4Of a) p = some t → t ∉ freeList m.k.vm root := by
  have d := vmmFreeUserSpace_dropped hs hroot
  rw [← hvm] at d
  obtain ⟨h1, h2⟩ := hs.not_mem_freeList hroot
  rw [freeList_of_mem d.mem, d.kpml4, (leaf_of_mem d.mem).2]
  refine ⟨h1, fun a ha p t hp ht => ?_⟩
  obtain ⟨x, hx, -, heq⟩ := mem_of_pml4Of ha
  rw [heq] at ht
  obtain ⟨hR, hne⟩ := hsub _ (mem_map_of_mem hx)
  exact h2 _ hR hne p t hp ht

end Cpu

/-- The invariant: the lists belong together, the address spaces are in order, and the right one is loaded. -/
structure Loaded (m : Cpu) (hb : Nat) (q all : List Nat) : Prop extends Tied m hb q all where
  sound : m.k.Sound
  cr3 : m.cr3 = m.rootOf m.sched.current

namespace Loaded

variable {m : Cpu} {hb : Nat} {q all : List Nat} {m' : Cpu} {q' all' : List Nat}

theorem live_of_none (h : Tied m' hb q' all') : m'.Live ⟨[], []⟩ :=
  ⟨q', h.rep.ready, fun _ _ => ⟨fun _ hr => absurd hr not_mem_nil, fun _ hr => absurd hr not_mem_nil⟩⟩

variable {i : Nat} {cur : Process}

theorem cr3_eq (h : Loaded m hb q all) (hr : m.running = some (i, cur)) : m.cr3 = cur.pml4 := by
  obtain ⟨hi, hcur, -, -⟩ := h.running_spec hr
  rw [h.cr3, ← hcur, Cpu.rootOf_eq h.addrs h.sound (mem_of_getElem? hi)]

theorem of_same_root (ht : Tied m' hb q' all') (hs : m'.k.Sound) {p : Process}
    (hp : p ∈ m'.k.procs) (hc : p.addr = m'.sched.current) (hroot : m'.cr3 = p.pml4) : Loaded m' hb q' all' :=
  { toTied := ht, sound := hs, cr3 := by rw [hroot, ← hc, Cpu.rootOf_eq ht.addrs hs hp] }

theorem yield (h : Loaded m hb q all) : (∃ q' all', Loaded m.yield hb q' all') ∧ m.yield.Live ⟨[], []⟩ := by
  obtain ⟨q', ht⟩ := h.toTied.yield
  exact ⟨⟨q', all, { toTied := ht, sound := h.sound, cr3 := Cpu.switch_cr3 _ h.cr3 }⟩, live_of_none ht⟩

section

variable (h : Loaded m hb q all) (hr : m.running = some (i, cur))
include h hr

theorem exit (code : Nat) : (∃ q' all', Loaded (m.exit i cur code) hb q' all') ∧ (m.exit i cur code).Live ⟨[], []⟩ := by
  obtain ⟨hi, -, -, -⟩ := h.running_spec hr
  obtain ⟨q', ht⟩ := h.toTied.exit hr code
  refine ⟨⟨q', all, { toTied := ht, sound := sysExit_sound h.sound hi code, cr3 := ?_ }⟩, live_of_none ht⟩
  set r := sysExit m.k i cur code
  refine Cpu.switch_cr3 (m := { m with k := r.1 }) _ ?_
  have hsame : ∀ a, ({ m with k := r.1 } : Cpu).pml4Of a = m.pml4Of a := by
    refine Cpu.pml4Of_congr ?_
    obtain ⟨l1, l2, hL, hset⟩ := split_at hi
    show (m.k.procs.set i _).map _ = _
    rw [hset, hL, map_append, map_append, map_cons, map_cons]
  have hroot : ({ m with k := r.1 } : Cpu).rootOf m.sched.current = m.rootOf m.sched.current := by
    unfold Cpu.rootOf
    rw [hsame]
    rfl
  exact h.cr3.trans hroot.symm

theorem fork {addr stack : Nat} (hf : addr = 0 ∨ m.fresh addr stack = true) (hok : StepOk m.k (i, .fork addr))
    (hfail : (m.fork cur addr stack).k.vm.pmm.failed = false) : (∃ q' all', Loaded (m.fork cur addr stack) hb q' all') ∧
    (m.fork cur addr stack).Live ⟨[], []⟩ := by
  obtain ⟨hi, hcur, -, hne⟩ := h.running_spec hr
  have hk : (m.fork cur addr stack).k = (sysFork m.k cur addr).1 := by
    unfold Cpu.fork
    simp only
    split <;> rfl
  have hcr3 : (m.fork cur addr stack).cr3 = m.cr3 := by
    unfold Cpu.fork
    simp only
    split <;> rfl
  have hsched : (m.fork cur addr stack).sched.current = m.sched.current := by
    unfold Cpu.fork
    simp only
    split
    · rfl
    · exact Sched.add_current _ addr
  have hmem : cur ∈ (m.fork cur addr stack).k.procs := by
    rw [hk]
    have hc := mem_of_getElem? hi
    unfold sysFork
    simp only
    split
    · exact hc
    split
    · exact hc
    · split
      · exact hc
      · exact mem_cons_of_mem _ hc
  obtain ⟨q', all', ht⟩ := h.toTied.fork cur hf hne
  rw [hk] at hfail
  have hs : (m.fork cur addr stack).k.Sound := by
    rw [hk]
    exact sysFork_sound h.sound hi addr (hok cur hi) hfail
  exact ⟨⟨q', all', of_same_root ht hs hmem (hcur.trans hsched.symm) (hcr3.trans (h.cr3_eq hr))⟩, live_of_none ht⟩

theorem access (va : Nat) (w : Option UInt8) (hfail : (userMode m.k i cur va w).1.vm.pmm.failed = false) :
    (∃ q' all', Loaded { m with k := (userMode m.k i cur va w).1 } hb q' all') ∧
      ({ m with k := (userMode m.k i cur va w).1 } : Cpu).Live ⟨[], []⟩ := by
  obtain ⟨hi, hcur, -, -⟩ := h.running_spec hr
  have ht := h.toTied.congr_keys (userMode_keys hi va w) m.cr3
  have hmem : ∃ low, { cur with stackLow := low } ∈ (userMode m.k i cur va w).1.procs := by
    unfold userMode
    split
    · exact ⟨cur.stackLow, mem_of_getElem? hi⟩
    · next low _ _ =>
      have hlt := (List.getElem?_eq_some_iff.1 hi).1
      refine ⟨low, ?_⟩
      cases w <;> exact mem_set hlt _
  obtain ⟨low, hmem⟩ := hmem
  have hcr3 : m.cr3 = cur.pml4 := h.cr3_eq hr
  exact ⟨⟨q, all, of_same_root ht (userMode_sound h.sound hi va w hfail) hmem hcur hcr3⟩, live_of_none ht⟩

theorem exec (prog : Option Image) (argv : List (List UInt8)) (hok : StepOk m.k (i, .exec prog argv))
    (hfail : (m.exec i cur prog argv).1.k.vm.pmm.failed = false) : (∃ q' all', Loaded (m.exec i cur prog argv).1 hb q' all') ∧
    (m.exec i cur prog argv).1.Live (m.exec i cur prog argv).2 := by
  obtain ⟨hi, hcur, -, -⟩ := h.running_spec hr
  have hk : (m.exec i cur prog argv).1.k = (sysExec m.k i cur prog argv).1 := by
    unfold Cpu.exec
    simp only
    split <;> rfl
  rw [hk] at hfail
  have hs := sysExec_sound h.sound hi prog argv hok.1 hok.2 hfail
  have hkeys := sysExec_keys hi prog argv
  unfold Cpu.exec
  simp only
  rcases sysExec_cases h.sound prog argv hok.1 hok.2 hfail with ⟨s, -, heq⟩ | ⟨s, d, brk, hsd, heq, -⟩
  · rw [if_neg (by rw [heq]; exact fun hx => by cases hx)]
    have ht := h.toTied.congr_keys hkeys m.cr3
    refine ⟨⟨q, all, of_same_root ht hs (p := cur) ?_ hcur (h.cr3_eq hr)⟩, live_of_none ht⟩
    show cur ∈ (sysExec m.k i cur prog argv).1.procs
    rw [heq]
    exact mem_of_getElem? hi
  · rw [if_pos (by rw [heq])]
    have hlt := (List.getElem?_eq_some_iff.1 hi).1
    have hmem : { cur with pml4 := d, stackLow := USTACK_BASE, brk := brk } ∈ (sysExec m.k i cur prog argv).1.procs := by
      rw [heq]
      exact mem_set hlt _
    have ht := h.toTied.congr_keys hkeys (({ m with k := (sysExec m.k i cur prog argv).1 } : Cpu).pml4Of m.sched.current)
    have hd : ({ m with k := (sysExec m.k i cur prog argv).1 } : Cpu).pml4Of m.sched.current = d := by
      rw [← hcur]
      exact Cpu.pml4Of_eq (m := { m with k := (sysExec m.k i cur prog argv).1 }) ht.addrs hmem
    refine ⟨⟨q, all, of_same_root ht hs hmem hcur hd⟩, q, ht.rep.ready, fun a _ => ⟨fun root hroot => ?_, fun _ hb => absurd hb
      not_mem_nil⟩⟩
    rw [mem_singleton.1 hroot]
    have ha := mem_cons_of_mem d (mem_kernelRoots hi)
    have hperm := roots_replace hi { cur with pml4 := d, stackLow := USTACK_BASE, brk := brk }
    have hnd := hsd.shape.nodup
    have hlive := Cpu.tables_live (m := { m with
        k := (sysExec m.k i cur prog argv).1
        cr3 := ({ m with k := (sysExec m.k i cur prog argv).1 } : Cpu).pml4Of m.sched.current })
      hsd.shape ha (by simp only [heq]) (fun b hb => ?_)
    · exact ⟨hlive.1, hlive.2 a⟩
    · have hb' : b ∈ (m.k.procs.set i { cur with pml4 := d, stackLow := USTACK_BASE, brk := brk }).map pml4 := by
        simp only [heq] at hb
        exact hb
      rcases mem_cons.1 (hperm.mem_iff.2 hb') with rfl | hbe
      · exact ⟨mem_cons_self, fun hx => (nodup_cons.1 hnd).1 (hx ▸ mem_kernelRoots hi)⟩
      · obtain ⟨hne, hbr⟩ := (nodup_cons.1 hnd).2.mem_erase_iff.1 hbe
        exact ⟨mem_cons_of_mem _ hbr, hne⟩

end

theorem waitpid_k (hi : m.k.procs[i]? = some cur) (hz : cur.zombie = false) (pid : Int)
    (status : Nat) : (m.waitpid i cur pid status).1.k = (sysWaitpid m.k i cur pid status).1 := by
  unfold Cpu.waitpid
  simp only
  rcases sysWaitpid_keys hi hz pid status with ⟨h1, h2⟩ | ⟨h1, -⟩ | ⟨z, -, -, hre, h1, -⟩
  · rw [h1, h2]
    rfl
  · rw [h1]
  · rw [h1, hre]
    dsimp only
    split <;> rfl

theorem waitpid (h : Loaded m hb q all) (hr : m.running = some (i, cur)) (pid : Int) (status : Nat)
    (hok : StepOk m.k (i, .waitpid pid status)) (hfail : (sysWaitpid m.k i cur pid status).1.vm.pmm.failed = false) :
    (∃ q' all', Loaded (m.waitpid i cur pid status).1 hb q' all') ∧
      (m.waitpid i cur pid status).1.Live (m.waitpid i cur pid status).2 := by
  obtain ⟨hi, hcur, hz, -⟩ := h.running_spec hr
  have hs := sysWaitpid_sound h.sound hi hz pid status hok hfail
  obtain ⟨q', all', ht⟩ := h.toTied.waitpid hr pid status
  rcases sysWaitpid_cases h.sound hi pid status hok hfail with ⟨-, heq⟩ | ⟨s, -, heq⟩ | ⟨z, s, low, hre, hsd, heq⟩
  · have hw : m.waitpid i cur pid status = (m.yield, ⟨[], []⟩) := by
      unfold Cpu.waitpid
      simp only [heq]
    rw [hw]
    exact h.yield
  · have hw : m.waitpid i cur pid status = ({ m with k := (sysWaitpid m.k i cur pid status).1 }, ⟨[], []⟩) := by
      unfold Cpu.waitpid
      simp only [heq]
    rw [hw] at ht ⊢
    refine ⟨⟨q', all', of_same_root ht hs (p := cur) ?_ hcur (h.cr3_eq hr)⟩, live_of_none ht⟩
    show cur ∈ (sysWaitpid m.k i cur pid status).1.procs
    rw [heq]
    exact mem_of_getElem? hi
  · have hzm := mem_of_find?_eq_some hre
    have hzz : z.zombie = true := by
      have := List.find?_some hre
      simp only [Bool.and_eq_true] at this
      exact this.1.1
    have hzk := Tied.mem_keys hzm
    have hzall : z.addr ∈ all := (h.listed _).2 (.inr (mem_map_of_mem hzk))
    have hzombie : m.sched.state z.addr = .zombie := (h.zombie _ hzk).1 hzz
    obtain ⟨s1, all1, hrem, hrep, hk, hst, hc, -⟩ := h.rep.remove hzall hzombie
    have hw : m.waitpid i cur pid status = ({ m with
        k := (sysWaitpid m.k i cur pid status).1
        sched := { s1 with structs := s1.structs.erase z.addr }
        stackBlocks := m.stackBlocks.erase (m.kstack z.addr) }, ⟨[z.pml4], [m.kstack z.addr, z.addr]⟩) := by
      unfold Cpu.waitpid
      simp only [heq, hre, hrem]
    rw [hw] at ht ⊢
    have hlt := (List.getElem?_eq_some_iff.1 hi).1
    have hmem : { cur with stackLow := low } ∈ (sysWaitpid m.k i cur pid status).1.procs := by
      rw [heq]
      refine (mem_erase_of_ne (fun hx => ?_)).2 (mem_set hlt _)
      rw [← hx] at hzz
      exact absurd (hz.symm.trans hzz) (by decide)
    have hcr3 : m.cr3 = cur.pml4 := h.cr3_eq hr
    refine ⟨⟨q', all', of_same_root ht hs hmem (hcur.trans hc.symm) hcr3⟩, q, hrep.ready, fun a ha => ⟨fun root hroot => ?_,
      fun b hb => ?_⟩⟩
    · rw [mem_singleton.1 hroot]
      have hperm := roots_reap hi hz hre low
      have hlive := Cpu.tables_live (m := { m with
          k := (sysWaitpid m.k i cur pid status).1
          sched := { s1 with structs := s1.structs.erase z.addr }
          stackBlocks := m.stackBlocks.erase (m.kstack z.addr) })
        hsd.shape (mem_map_of_mem hzm) (by simp only [heq]) (fun b hb => ?_)
      · exact ⟨hlive.1, hlive.2 a⟩
      · have hb' : b ∈ ((m.k.procs.set i { cur with stackLow := low }).erase z).map pml4 := by
          simp only [heq] at hb
          exact hb
        have hnd := hperm.nodup_iff.1 hsd.shape.nodup
        exact ⟨hperm.mem_iff.2 (mem_cons_of_mem _ hb'), fun hx => (nodup_cons.1 hnd).1 (hx ▸ hb')⟩
    · have ha' : a ∈ m.sched.current :: q := by
        rw [← hc]
        exact ha
      have haz : a ≠ z.addr := fun hx => h.rep.not_zombie ha' (hx ▸ hzombie)
      have hzs : z.addr ∈ m.sched.structs := h.rep.alloc _ (mem_cons_of_mem _ hzall)
      have hi0 : idle ∈ m.sched.structs := h.rep.alloc _ mem_cons_self
      have hzi : z.addr ≠ idle := fun hx => (nodup_cons.1 h.rep.nodup).1 (hx ▸ hzall)
      have hapart := Finset.disjoint_left.1 h.apart
      show b ≠ m.kstack a
      rw [mem_cons, mem_singleton] at hb
      rcases (h.rep.mem a).1 ha' with rfl | ⟨haa, -⟩
      · rw [h.idleStack]
        rcases hb with rfl | rfl
        · intro hx
          have hmem := h.stack _ hzall
          rw [hx] at hmem
          exact hapart hi0 hmem
        · exact hzi
      · rcases hb with rfl | rfl
        · exact fun hx => haz (h.stackInj _ hzall a haa hx).symm
        · exact fun hx => hapart hzs (hx ▸ h.stack a haa)

theorem step (h : Loaded m hb q all) (a : Cpu.Act) (hok : m.ActOk a) (hfail : (m.step a).1.k.vm.pmm.failed = false) :
    (∃ q' all', Loaded (m.step a).1 hb q' all') ∧ (m.step a).1.Live (m.step a).2 := by
  unfold Cpu.step at hfail ⊢
  split
  · exact ⟨⟨q, all, h⟩, live_of_none h.toTied⟩
  next hh =>
  rw [if_neg hh] at hfail
  cases hr : m.running with
  | none =>
    cases a with
    | yield => exact h.yield
    | _ => exact ⟨⟨q, all, h⟩, live_of_none h.toTied⟩
  | some ic =>
    obtain ⟨i, cur⟩ := ic
    rw [hr] at hfail
    obtain ⟨hi, -, hz, -⟩ := h.running_spec hr
    cases a with
    | yield => exact h.yield
    | fork addr stack =>
      simp only [Cpu.call] at hfail ⊢
      split
      · next hf =>
        rw [if_pos hf] at hfail
        exact h.fork hr hf (hok i cur _ hr rfl) hfail
      · exact ⟨⟨q, all, h⟩, live_of_none h.toTied⟩
    | exec prog argv => exact h.exec hr prog argv (hok i cur _ hr rfl) hfail
    | exit code => exact h.exit hr code
    | waitpid pid status =>
      refine h.waitpid hr pid status (hok i cur _ hr rfl) ?_
      rw [← waitpid_k hi hz pid status]
      exact hfail
    | access va w => exact h.access hr va w hfail

theorem boot {s : Vm} (hs : Ready s) {img : Image} (himg : Under img) {up hb stackUp stackHb : Nat}
    (hblocks : [idle, up, hb, stackUp, stackHb].Nodup) (hok : (Cpu.boot s img up hb stackUp stackHb).k.vm.pmm.failed = false) :
    ∃ q all, Loaded (Cpu.boot s img up hb stackUp stackHb) hb q all := by
  simp only [nodup_cons, mem_cons, not_or, not_mem_nil, not_false_eq_true, nodup_nil, and_true] at hblocks
  obtain ⟨⟨h1, h2, h3, h4⟩, ⟨h5, h6, h7⟩, ⟨h8, h9⟩, h10⟩ := hblocks
  obtain ⟨hrep, hcur, hstr, hst, hus⟩ := Sched.spawned_rep up hb (Ne.symm h1) (Ne.symm h2) h5
  set c := Cpu.spawned s img up hb stackUp stackHb with hc
  have hvm : c.k.vm = (Noxis.boot s img up).vm ∧
      c.k.procs = (Noxis.boot s img up).procs ∧
      c.cr3 = (Noxis.boot s img up).vm.kpml4 := by
    rw [hc]
    unfold Cpu.spawned
    generalize Noxis.boot s img up = k
    exact ⟨rfl, rfl, rfl⟩
  have hsound : c.k.Sound := by
    have hok' : c.k.vm.pmm.failed = false := hok
    rw [hvm.1] at hok'
    unfold Kernel.Sound Kernel.roots
    rw [hvm.1, hvm.2.1]
    exact boot_sound hs himg up hok'
  have hkeys : c.k.keys = [(up, false)] := by
    unfold Kernel.keys
    rw [hvm.2.1]
    rfl
  have hkup : c.kstack up = stackUp := (update_of_ne h5 _ _).trans (update_self ..)
  have hkhb : c.kstack hb = stackHb := update_self ..
  have hblk : c.stackBlocks = {stackUp, stackHb} := rfl
  have ht : Tied c hb [up, hb] [hb, up] := by
    refine ⟨hrep, fun a => ?_, ?_, ?_, fun x hx => ?_, hst hb, fun x hx => ?_, fun a ha => ?_, fun a ha b hb' hab => ?_, ?_, ?_⟩
    · simp [hkeys]
    · simp [hkeys]
    · simp [hkeys, Ne.symm h5]
    · rw [hkeys, mem_singleton] at hx
      rw [hx]
      exact ⟨fun hx => (by cases hx), fun hx => absurd hx (hst up)⟩
    · rw [hkeys, mem_singleton] at hx
      rw [hx]
      exact hus
    · rw [hblk]
      rw [mem_cons, mem_singleton] at ha
      rcases ha with rfl | rfl
      · rw [hkhb]
        simp
      · rw [hkup]
        simp
    · rw [mem_cons, mem_singleton] at ha hb'
      rcases ha with hae | hae <;> rcases hb' with hbe | hbe <;> rw [hae, hbe] at hab ⊢
      · exact absurd (hkup.symm.trans (hab.symm.trans hkhb)) h10
      · exact absurd (hkup.symm.trans (hab.trans hkhb)) h10
    · have hstr' : c.sched.structs = {hb, up, idle} := hstr
      rw [hstr', hblk]
      simp only [Finset.disjoint_insert_left, Finset.disjoint_singleton_left, Finset.mem_insert, Finset.mem_singleton, not_or]
      exact ⟨⟨h8, h9⟩, ⟨h6, h7⟩, h3, h4⟩
    · exact (update_of_ne h2 _ _).trans (update_of_ne h1 _ _)
  have hl : Loaded c hb [up, hb] [hb, up] := by
    refine { toTied := ht, sound := hsound, cr3 := ?_ }
    have hcur' : c.sched.current = idle := hcur
    rw [hcur']
    unfold Cpu.rootOf
    rw [if_neg]
    · rw [hvm.1, hvm.2.2]
    · rw [not_not]
      by_contra h0
      obtain ⟨p, hp, hpa, -⟩ := Cpu.mem_of_pml4Of h0
      have hkey := Tied.mem_keys hp
      rw [hkeys, mem_singleton] at hkey
      exact h1 (hpa.symm.trans (congrArg Prod.fst hkey))
  obtain ⟨⟨q, all, hy⟩, -⟩ := hl.yield
  exact ⟨q, all, hy⟩

end Loaded

/-- **The loaded address space is live and right.**  In every run from boot whose steps meet the condition, CR3 holds the
PML4 of the running process (the kernel's for a kernel thread), and no step releases a page table or the kernel stack of a
process that is running or in the ready queue. -/
theorem loaded_space_live (s : Vm) (hs : Ready s) (img : Image) (himg : Under img) (up hb stackUp stackHb : Nat)
    (hblocks : [idle, up, hb, stackUp, stackHb].Nodup) (acts : List Cpu.Act)
    (hfail : Always Cpu.step (fun m => m.k.vm.pmm.failed = false) (Cpu.boot s img up hb stackUp stackHb) acts)
    (hacts : ∀ pre a post, acts = pre ++ a :: post → (run Cpu.step (Cpu.boot s img up hb stackUp stackHb) pre).1.ActOk a) :
    (∀ pre, pre <+: acts → ∀ m, m = (run Cpu.step (Cpu.boot s img up hb stackUp stackHb) pre).1 →
      m.cr3 = if m.pml4Of m.sched.current ≠ 0 then m.pml4Of m.sched.current else m.k.vm.kpml4) ∧
    ∀ pre a post, acts = pre ++ a :: post → ∀ m, m = (run Cpu.step (Cpu.boot s img up hb stackUp stackHb) pre).1 →
      (m.step a).1.Live (m.step a).2 := by
  have hinv : ∀ pre, pre <+: acts →
      ∃ q all, Loaded (run Cpu.step (Cpu.boot s img up hb stackUp stackHb) pre).1 hb q all := by
    intro pre ⟨post, hpost⟩
    refine run_inv (P := fun m => ∃ q all, Loaded m hb q all)
      (C := fun m a => m.ActOk a ∧ (m.step a).1.k.vm.pmm.failed = false)
      (fun m a ⟨q, all, h⟩ hc => (h.step a hc.1 hc.2).1) pre _ (Loaded.boot hs himg hblocks hfail.head)
      (fun pre1 a post1 hp => ⟨hacts pre1 a (post1 ++ post) (by rw [← hpost, hp, append_assoc]; rfl), ?_⟩)
    have hf := hfail (pre1 ++ [a]) ⟨post1 ++ post, by rw [← hpost, hp]; simp⟩
    rw [run_append] at hf
    exact hf
  refine ⟨fun pre hpre m hm => ?_, fun pre a post hp m hm => ?_⟩
  · obtain ⟨q, all, h⟩ := hinv pre hpre
    rw [← hm] at h
    exact h.cr3
  · obtain ⟨q, all, h⟩ := hinv pre ⟨a :: post, hp.symm⟩
    have hf := hfail (pre ++ [a]) ⟨post, by rw [hp]; simp⟩
    rw [run_append] at hf
    have hok := hacts pre a post hp
    rw [← hm] at h hf hok
    exact (h.step a hok hf).2

end Noxis
