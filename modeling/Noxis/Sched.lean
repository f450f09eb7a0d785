import Noxis.Linked
import Noxis.Run
/-!
# Sched — the scheduler

`proc/scheduler.c` with the turns of `sys_waitpid`.  A process is the address of its `process_t`; the ready queue and the
global list are threaded through `next` and `all_next`, and the boot context is the statically allocated `g_idle`, which is
in no global list.  A machine step is one call made by the running process or one timer interrupt, and is atomic.

`Rep s q all` says what the two lists are and who is in them.  Every step keeps it, so it holds in every state a run from
the boot sequence of `kernel_main` reaches (`scheduler_invariant`).
-/
namespace Noxis

open List Option Function
open Linked

inductive ProcState where
  | ready | running | blocked | zombie
  deriving DecidableEq, Repr

/-- The scheduler's globals and the fields of every `process_t` it reads.  `user` says whether the process drops to ring 3,
`structs` which `process_t` are allocated. -/
structure Sched where
  current : Nat
  readyHead : Option Nat
  readyTail : Option Nat
  allHead : Option Nat
  next : Nat → Option Nat
  allNext : Nat → Option Nat
  parent : Nat → Option Nat
  state : Nat → ProcState
  pid : Nat → Nat
  quantum : Nat → Nat
  exitCode : Nat → Int
  user : Nat → Bool
  nextPid : Nat
  structs : Finset Nat

def procQuantum : Nat := 10

def procKstackSize : Nat := 16384

def procBytes : Nat := 6064

namespace Sched

def idle : Nat := 0

/-! ## The code -/

def schedulerInit : Sched :=
  { current := idle, readyHead := none, readyTail := none, allHead := none, next := fun _ => none, allNext := fun _ => none,
    parent := fun _ => none, state := fun _ => .running, pid := fun _ => 0, quantum := fun _ => procQuantum,
    exitCode := fun _ => 0, user := fun _ => false, nextPid := 1, structs := {idle} }

/-- `proc_alloc` when `kmalloc` answers the address `a`, with the `parent` and the ring the caller sets. -/
def procAlloc (s : Sched) (a : Nat) (parent : Option Nat) (user : Bool) : Sched :=
  { s with
    pid := update s.pid a s.nextPid, nextPid := s.nextPid + 1, state := update s.state a .ready,
    quantum := update s.quantum a procQuantum, parent := update s.parent a parent, exitCode := update s.exitCode a 0,
    next := update s.next a none, allNext := update s.allNext a none, user := update s.user a user,
    structs := insert a s.structs }

def schedulerAdd (s : Sched) (p : Nat) : Sched :=
  match s.readyTail with
  | some t => { s with next := update (update s.next p none) t (some p), readyTail := some p }
  | none => { s with next := update s.next p none, readyHead := some p, readyTail := some p }

def schedulerRegister (s : Sched) (p : Nat) : Sched :=
  schedulerAdd { s with allNext := update s.allNext p s.allHead, allHead := some p } p

/-- `scheduler_remove`; a list of more than `g_next_pid` nodes has a cycle, on which the loop does not end. -/
def schedulerRemove (s : Sched) (p : Nat) : Option Sched :=
  match findLoc s.allNext p s.nextPid none s.allHead with
  | none => none
  | some none => some s
  | some (some loc) =>
    let r := setLoc s.allNext s.allHead loc (s.allNext p)
    some { s with allHead := r.1, allNext := r.2 }

def reapable (s : Sched) (parent : Nat) (pid : Int) (p : Nat) : Bool :=
  s.state p == .zombie && s.parent p == some parent && (pid ≤ 0 || (s.pid p : Int) == pid)

def schedulerReap (s : Sched) (parent : Nat) (pid : Int) : Option (Option Nat) :=
  scan s.allNext (s.reapable parent pid) s.nextPid s.allHead

/-- The part of `scheduler_yield` after the queue has been popped. -/
def requeue (s : Sched) (prev : Nat) : Sched :=
  if s.state prev = .running ∨ s.state prev = .ready then
    schedulerAdd { s with state := update s.state prev .ready } prev
  else s

def schedulerYield (s : Sched) : Sched :=
  match s.readyHead with
  | none => s
  | some n =>
    let s1 := { s with readyHead := s.next n, readyTail := if (s.next n).isNone then none else s.readyTail }
    let s2 := s1.requeue s.current
    { s2 with state := update s2.state n .running, quantum := update s2.quantum n procQuantum, current := n }

def schedulerExit (s : Sched) (code : Int) : Sched :=
  schedulerYield { s with exitCode := update s.exitCode s.current code, state := update s.state s.current .zombie }

/-- The rest of `scheduler_tick` once no signal has ended the process. -/
def schedulerTick (s : Sched) : Sched :=
  let s1 := { s with quantum := update s.quantum s.current (s.quantum s.current - 1) }
  if s1.quantum s.current = 0 then s1.schedulerYield else s1

/-! ## The machine -/

/-- What the running process, or the timer, does next.  `fork` carries the address `kmalloc` answers, `tick` the pending
signal that ends the interrupted process, if there is one. -/
inductive Event where
  | fork (a : Nat)
  | yield
  | tick (fatal : Option Nat)
  | exit (code : Int)
  | waitpid (pid : Int)

/-- A pid that leaves the ready queue for good, or the global list. -/
inductive Gone where
  | exited (pid : Nat)
  | reaped (pid : Nat)
  deriving DecidableEq

def exitTurn (s : Sched) (code : Int) : Sched × Option Gone :=
  (s.schedulerExit code, some (.exited (s.pid s.current)))

def waitTurn (s : Sched) (pid : Int) : Sched × Option Gone :=
  match s.schedulerReap s.current pid with
  | none => (s, none)
  | some none => (s.schedulerYield, none)
  | some (some z) =>
    match s.schedulerRemove z with
    | none => (s, none)
    | some s1 => ({ s1 with structs := s1.structs.erase z }, some (.reaped (s.pid z)))

/-- A step.  Only ring-3 processes make system calls and are ended by signals (the idle context and the kernel threads
loop for ever), and `kmalloc` answers no address that is in use. -/
def step (s : Sched) : Event → Sched × Option Gone
  | .yield => (s.schedulerYield, none)
  | .tick none => (s.schedulerTick, none)
  | .tick (some sig) => if s.user s.current then s.exitTurn (128 + sig) else (s.schedulerTick, none)
  | .fork a =>
    if s.user s.current ∧ a ∉ s.structs then
      ((s.procAlloc a (some s.current) true).schedulerRegister a, none)
    else (s, none)
  | .exit code => if s.user s.current then s.exitTurn code else (s, none)
  | .waitpid pid => if s.user s.current then s.waitTurn pid else (s, none)

/-- `kernel_main` from `scheduler_init` on: the shell at `up` and the heartbeat thread at `hb` are registered. -/
def spawned (up hb : Nat) : Sched :=
  let s1 := (schedulerInit.procAlloc up none true).schedulerRegister up
  (s1.procAlloc hb none false).schedulerRegister hb

def boot (up hb : Nat) : Sched := (spawned up hb).schedulerYield

/-! ## The two lists -/

structure Links (s : Sched) (q all : List Nat) : Prop where
  ready : Chain s.next s.readyHead q
  tail : s.readyTail = q.getLast?
  every : Chain s.allNext s.allHead all

variable {s : Sched} {q all : List Nat} {p n : Nat}

theorem Links.add (h : Links s q all) (hq : q.Nodup) (hp : p ∉ q) : Links (s.schedulerAdd p) (q ++ [p]) all := by
  rcases eq_nil_or_concat q with rfl | ⟨l, t, rfl⟩
  · have ht : s.readyTail = none := h.tail
    unfold schedulerAdd
    rw [ht]
    exact ⟨⟨rfl, update_self ..⟩, rfl, h.every⟩
  rw [concat_eq_append] at *
  have ht : s.readyTail = some t := by rw [h.tail, getLast?_concat]
  unfold schedulerAdd
  rw [ht]
  exact ⟨h.ready.snoc hq hp, by rw [getLast?_concat], h.every⟩

theorem Links.register (h : Links s q all) (hq : q.Nodup) (hp : p ∉ q)
    (ha : p ∉ all) : Links (s.schedulerRegister p) (q ++ [p]) (p :: all) := by
  refine Links.add ?_ hq hp
  exact ⟨h.ready, h.tail, h.every.push ha⟩

theorem Links.procAlloc {a : Nat} (par : Option Nat) (u : Bool) (h : Links s q all)
    (hq : a ∉ q) (ha : a ∉ all) : Links (s.procAlloc a par u) q all :=
  ⟨h.ready.congr (fun b hb => update_of_ne (fun (hx : b = a) => hq (hx ▸ hb)) _ _), h.tail,
    h.every.congr (fun b hb => update_of_ne (fun (hx : b = a) => ha (hx ▸ hb)) _ _)⟩

/-- Everything but the ready queue, the states, the quanta and who runs. -/
structure Kept (s s' : Sched) : Prop where
  allHead : s'.allHead = s.allHead
  allNext : s'.allNext = s.allNext
  parent : s'.parent = s.parent
  pid : s'.pid = s.pid
  user : s'.user = s.user
  nextPid : s'.nextPid = s.nextPid
  structs : s'.structs = s.structs

theorem add_kept (s : Sched) (p : Nat) : Kept s (s.schedulerAdd p) := by
  unfold schedulerAdd
  split <;> exact ⟨rfl, rfl, rfl, rfl, rfl, rfl, rfl⟩

@[simp] theorem add_state (s : Sched) (p : Nat) : (s.schedulerAdd p).state = s.state := by
  unfold schedulerAdd
  split <;> rfl

@[simp] theorem add_current (s : Sched) (p : Nat) : (s.schedulerAdd p).current = s.current := by
  unfold schedulerAdd
  split <;> rfl

structure Registered (s s' : Sched) (a : Nat) (u : Bool) : Prop where
  current : s'.current = s.current
  state : s'.state = update s.state a .ready
  pid : s'.pid = update s.pid a s.nextPid
  nextPid : s'.nextPid = s.nextPid + 1
  user : s'.user = update s.user a u
  structs : s'.structs = insert a s.structs

theorem register_kept (s : Sched) (a : Nat) (par : Option Nat) (u : Bool) :
    Registered s ((s.procAlloc a par u).schedulerRegister a) a u := by
  have hk := add_kept { s.procAlloc a par u with
    allNext := update (s.procAlloc a par u).allNext a (s.procAlloc a par u).allHead, allHead := some a } a
  exact ⟨add_current _ a, add_state _ a, hk.pid, hk.nextPid, hk.user, hk.structs⟩

theorem requeue_kept (s : Sched) (p : Nat) : Kept s (s.requeue p) := by
  unfold requeue
  split
  · have h := add_kept { s with state := update s.state p .ready } p
    exact ⟨h.allHead, h.allNext, h.parent, h.pid, h.user, h.nextPid, h.structs⟩
  · exact ⟨rfl, rfl, rfl, rfl, rfl, rfl, rfl⟩

def popped (s : Sched) (n : Nat) : Sched :=
  { s with readyHead := s.next n, readyTail := if (s.next n).isNone then none else s.readyTail }

theorem yield_eq (h : s.readyHead = some n) : s.schedulerYield = { (s.popped n).requeue s.current with
      state := update ((s.popped n).requeue s.current).state n .running
      quantum := update ((s.popped n).requeue s.current).quantum n procQuantum
      current := n } := by
  unfold schedulerYield
  rw [h]
  rfl

theorem yield_kept (s : Sched) : Kept s s.schedulerYield := by
  cases hh : s.readyHead with
  | none =>
    unfold schedulerYield
    rw [hh]
    exact ⟨rfl, rfl, rfl, rfl, rfl, rfl, rfl⟩
  | some n =>
    rw [yield_eq hh]
    have h := requeue_kept (s.popped n) s.current
    exact ⟨h.allHead, h.allNext, h.parent, h.pid, h.user, h.nextPid, h.structs⟩

theorem Links.pop (h : Links s (n :: q) all) : Links (s.popped n) q all := by
  refine ⟨h.ready.2, ?_, h.every⟩
  unfold popped
  cases q with
  | nil =>
    have hn : s.next n = none := h.ready.2
    simp only [hn, isNone_none, if_true]
    rfl
  | cons m q =>
    have hn : s.next n = some m := h.ready.2.1
    simp only [hn, isNone_some, Bool.false_eq_true, if_false]
    rw [h.tail, getLast?_cons_cons]

theorem Links.yield (h : Links s (n :: q) all)
    (hnd : (s.current :: n :: q).Nodup) (hrun : s.state s.current = .ready ∨ s.state s.current = .running) :
    Links s.schedulerYield (q ++ [s.current]) all ∧ s.schedulerYield.current = n ∧
      s.schedulerYield.state = update (update s.state s.current .ready) n .running := by
  have hcq : s.current ∉ q := fun hx => (nodup_cons.1 hnd).1 (mem_cons_of_mem _ hx)
  have hq : q.Nodup := (nodup_cons.1 (nodup_cons.1 hnd).2).2
  have hre : (s.popped n).requeue s.current =
      schedulerAdd { s.popped n with state := update s.state s.current .ready } s.current := by
    unfold requeue
    rw [if_pos (by exact hrun.symm)]
    rfl
  have hadd := Links.add (s := { s.popped n with state := update s.state s.current .ready })
    ⟨h.pop.ready, h.pop.tail, h.pop.every⟩ hq hcq
  rw [yield_eq h.ready.1, hre]
  refine ⟨⟨hadd.ready, hadd.tail, hadd.every⟩, rfl, ?_⟩
  rw [add_state]

theorem Links.drop (h : Links s (n :: q) all)
    (hz : s.state s.current = .zombie) : Links s.schedulerYield q all ∧ s.schedulerYield.current = n ∧
      s.schedulerYield.state = update s.state n .running := by
  have hre : (s.popped n).requeue s.current = s.popped n := by
    unfold requeue
    rw [if_neg]
    rintro (hx | hx) <;> exact absurd (hz.symm.trans hx) (by decide)
  rw [yield_eq h.ready.1, hre]
  exact ⟨⟨h.pop.ready, h.pop.tail, h.pop.every⟩, rfl, rfl⟩

/-! ## The invariant -/

/-- Who is in the lists: the running process and the queue are the idle context and the processes of the global list that
are not zombies, each once. -/
structure Rep (s : Sched) (q all : List Nat) : Prop extends Links s q all where
  nodup : (idle :: all).Nodup
  once : (s.current :: q).Nodup
  mem : ∀ p, p ∈ s.current :: q ↔ p = idle ∨ p ∈ all ∧ s.state p ≠ .zombie
  runs : ∀ p ∈ s.current :: q, s.state p = .ready ∨ s.state p = .running
  alloc : ∀ p ∈ idle :: all, p ∈ s.structs
  pidIdle : s.pid idle = 0
  pids : ∀ p ∈ all, 0 < s.pid p ∧ s.pid p < s.nextPid
  pidsNodup : (all.map s.pid).Nodup
  kernel : s.user idle = false

namespace Rep

variable {s : Sched} {q all : List Nat}

theorem not_zombie (h : Rep s q all) {p : Nat} (hp : p ∈ s.current :: q) : s.state p ≠ .zombie := by
  rcases h.runs p hp with hr | hr <;> rw [hr] <;> decide

theorem current_mem (h : Rep s q all) (hu : s.user s.current = true) : s.current ≠ idle ∧ s.current ∈ all := by
  have hne : s.current ≠ idle := fun hx => by rw [hx, h.kernel] at hu; cases hu
  rcases (h.mem s.current).1 mem_cons_self with hx | hx
  · exact absurd hx hne
  · exact ⟨hne, hx.1⟩

theorem queue_ne_nil (h : Rep s q all) (hne : s.current ≠ idle) : ∃ n q', q = n :: q' := by
  cases q with
  | nil => exact absurd (mem_singleton.1 ((h.mem idle).2 (.inl rfl))).symm hne
  | cons n q => exact ⟨n, q, rfl⟩

theorem length_lt (h : Rep s q all) : all.length ≤ s.nextPid := by
  have hsub : (all.map s.pid).Subperm (range s.nextPid) := by
    refine h.pidsNodup.subperm (fun x hx => ?_)
    obtain ⟨p, hp, rfl⟩ := mem_map.1 hx
    exact mem_range.2 (h.pids p hp).2
  have hle := hsub.length_le
  rwa [length_map, length_range] at hle

theorem of_kept (h : Rep s q all) {s' : Sched} {q' : List Nat} (hl : Links s' q' all) (hk : Kept s s')
    (honce : (s'.current :: q').Nodup) (hmem : ∀ p, p ∈ s'.current :: q' ↔ p = idle ∨ p ∈ all ∧ s'.state p ≠ .zombie)
    (hruns : ∀ p ∈ s'.current :: q', s'.state p = .ready ∨ s'.state p = .running) : Rep s' q' all where
  toLinks := hl
  nodup := h.nodup
  once := honce
  mem := hmem
  runs := hruns
  alloc := by rw [hk.structs]; exact h.alloc
  pidIdle := by rw [hk.pid]; exact h.pidIdle
  pids := by rw [hk.pid, hk.nextPid]; exact h.pids
  pidsNodup := by rw [hk.pid]; exact h.pidsNodup
  kernel := by rw [hk.user]; exact h.kernel

end Rep

structure Next (s : Sched) (q all : List Nat) (s' : Sched) (q' all' : List Nat) (out : Option Gone) : Prop where
  rep : Rep s' q' all'
  grows : s.nextPid ≤ s'.nextPid
  running : ∀ p ∈ s'.current :: q', s'.pid p < s.nextPid → ∃ p' ∈ s.current :: q, s.pid p' = s'.pid p
  listed : ∀ p ∈ all', s'.pid p < s.nextPid → ∃ p' ∈ all, s.pid p' = s'.pid p
  exited : ∀ n, out = some (.exited n) → 0 < n ∧ n < s.nextPid ∧ ∀ p ∈ s'.current :: q', s'.pid p ≠ n
  reaped : ∀ n, out = some (.reaped n) → 0 < n ∧ n < s.nextPid ∧ ∀ p ∈ all', s'.pid p ≠ n

namespace Rep

variable {s : Sched} {q all : List Nat}

theorem next_of_kept {s' : Sched} {q' : List Nat} (hr : Rep s' q' all) (hk : Kept s s')
    (hsub : ∀ p ∈ s'.current :: q', p ∈ s.current :: q) : Next s q all s' q' all none where
  rep := hr
  grows := hk.nextPid.ge
  running := fun p hp _ => ⟨p, hsub p hp, by rw [hk.pid]⟩
  listed := fun p hp _ => ⟨p, hp, by rw [hk.pid]⟩
  exited := fun n hn => by cases hn
  reaped := fun n hn => by cases hn

variable {n a : Nat}

theorem yield_spec (h : Rep s (n :: q) all) : Rep s.schedulerYield (q ++ [s.current]) all ∧
    s.schedulerYield.current = n ∧ ∀ p, s.schedulerYield.state p = .zombie ↔ s.state p = .zombie := by
  obtain ⟨hl, hcur, hstate⟩ := h.toLinks.yield h.once (h.runs _ mem_cons_self)
  have hperm : (s.schedulerYield.current :: (q ++ [s.current])).Perm (s.current :: n :: q) := by
    rw [hcur, ← cons_append]
    exact perm_append_comm
  have hzombie : ∀ p, s.schedulerYield.state p = .zombie ↔ s.state p = .zombie := fun p => by
    rw [hstate]
    by_cases hpn : p = n
    · subst hpn
      rw [update_self]
      exact ⟨fun hx => (by cases hx), fun hx => absurd hx (h.not_zombie (by simp))⟩
    rw [update_of_ne hpn]
    by_cases hpc : p = s.current
    · subst hpc
      rw [update_self]
      exact ⟨fun hx => (by cases hx), fun hx => absurd hx (h.not_zombie mem_cons_self)⟩
    · rw [update_of_ne hpc]
  refine ⟨h.of_kept hl (yield_kept s) (hperm.nodup_iff.2 h.once) (fun p => ?_) (fun p hp => ?_), hcur, hzombie⟩
  · rw [hperm.mem_iff, h.mem, ne_eq, ne_eq, hzombie]
  · rw [hstate]
    by_cases hpn : p = n
    · exact .inr (by rw [hpn, update_self])
    rw [update_of_ne hpn]
    by_cases hpc : p = s.current
    · exact .inl (by rw [hpc, update_self])
    · rw [update_of_ne hpc]
      exact h.runs p (hperm.mem_iff.1 hp)

theorem yield_nil (h : Rep s [] all) : s.schedulerYield = s := by
  have hhead : s.readyHead = none := h.ready
  unfold schedulerYield
  rw [hhead]

theorem yield_next (h : Rep s q all) : ∃ q', Next s q all s.schedulerYield q' all none := by
  cases q with
  | nil =>
    rw [h.yield_nil]
    exact ⟨[], next_of_kept h ⟨rfl, rfl, rfl, rfl, rfl, rfl, rfl⟩ (fun _ hp => hp)⟩
  | cons n q =>
    obtain ⟨hr, hcur, -⟩ := h.yield_spec
    refine ⟨_, next_of_kept hr (yield_kept s) (fun p hp => ?_)⟩
    rw [hcur, mem_cons, mem_append, mem_singleton] at hp
    rw [mem_cons, mem_cons]
    tauto

theorem ticked (h : Rep s q all) : Rep { s with quantum := update s.quantum s.current (s.quantum s.current - 1) } q all :=
  h.of_kept ⟨h.ready, h.tail, h.every⟩ ⟨rfl, rfl, rfl, rfl, rfl, rfl, rfl⟩ h.once h.mem h.runs

theorem tick_next (h : Rep s q all) : ∃ q', Next s q all s.schedulerTick q' all none := by
  have h1 := h.ticked
  unfold schedulerTick
  dsimp only
  split
  · obtain ⟨q', hn⟩ := h1.yield_next
    exact ⟨q', hn.rep, hn.grows, hn.running, hn.listed, hn.exited, hn.reaped⟩
  · exact ⟨q, next_of_kept h1 ⟨rfl, rfl, rfl, rfl, rfl, rfl, rfl⟩ (fun _ hp => hp)⟩

theorem exit_spec (h : Rep s (n :: q) all) (hne : s.current ≠ idle) (code : Int) :
    let w := s.schedulerExit code
    Rep w q all ∧ w.current = n ∧ Kept s w ∧ ∀ p, w.state p = .zombie ↔ p = s.current ∨ s.state p = .zombie := by
  set r := nodup_cons.1 h.once
  have hcn : s.current ≠ n := fun hx => r.1 (by simp [hx])
  have hcq : s.current ∉ n :: q := r.1
  unfold schedulerExit
  generalize hs1 : ({ s with
    exitCode := update s.exitCode s.current code, state := update s.state s.current .zombie } : Sched) = s1
  have hl1 : Links s1 (n :: q) all := by subst hs1; exact ⟨h.ready, h.tail, h.every⟩
  have hc1 : s1.current = s.current := by subst hs1; rfl
  have hst1 : s1.state = update s.state s.current .zombie := by subst hs1; rfl
  obtain ⟨hl, hcur', hstate⟩ := hl1.drop (by rw [hst1, hc1, update_self])
  have hk : Kept s s1.schedulerYield := by
    have hk1 := yield_kept s1
    subst hs1
    exact ⟨hk1.allHead, hk1.allNext, hk1.parent, hk1.pid, hk1.user, hk1.nextPid, hk1.structs⟩
  have hst : ∀ p, p ≠ n → p ≠ s.current → s1.schedulerYield.state p = s.state p := fun p h1 h2 => by
    rw [hstate, update_of_ne h1, hst1, update_of_ne h2]
  have hzombie : ∀ p, s1.schedulerYield.state p = .zombie ↔ p = s.current ∨ s.state p = .zombie := fun p => by
    by_cases hpc : p = s.current
    · subst hpc
      rw [hstate, update_of_ne hcn, hst1, update_self]
      exact ⟨fun _ => .inl rfl, fun _ => rfl⟩
    rw [or_iff_right hpc]
    by_cases hpn : p = n
    · subst hpn
      rw [hstate, update_self]
      exact ⟨fun hx => (by cases hx), fun hx => absurd hx (h.not_zombie (by simp))⟩
    · rw [hst p hpn hpc]
  refine ⟨h.of_kept hl hk (by rw [hcur']; exact r.2) (fun p => ?_) (fun p hp => ?_), hcur', hk, hzombie⟩
  · rw [hcur', ne_eq, hzombie, not_or]
    by_cases hpc : p = s.current
    · subst hpc
      simp only [hcq, hne, not_true_eq_false, false_and, and_false, or_false]
    · have hiff := h.mem p
      rw [mem_cons, or_iff_right hpc] at hiff
      simp only [hiff, hpc, ne_eq, not_false_eq_true, true_and]
  · rw [hcur'] at hp
    by_cases hpn : p = n
    · exact .inr (by rw [hpn, hstate, update_self])
    · rw [hst p hpn (fun hx => hcq (hx ▸ hp))]
      exact h.runs p (mem_cons_of_mem _ hp)

section

variable (h : Rep s q all)
include h

theorem exit_next (hu : s.user s.current = true) (code : Int) : ∃ q', Next s q all (s.schedulerExit code) q' all
    (some (.exited (s.pid s.current))) := by
  obtain ⟨hne, hcur⟩ := h.current_mem hu
  obtain ⟨n, q1, rfl⟩ := h.queue_ne_nil hne
  obtain ⟨hr, hcur', hk, hzombie⟩ := h.exit_spec hne code
  refine ⟨q1, hr, hk.nextPid.ge, fun p hp _ => ⟨p, ?_, by rw [hk.pid]⟩, fun p hp _ => ⟨p, hp, by rw [hk.pid]⟩,
    fun m hm => ?_, fun m hm => by cases hm⟩
  · rw [hcur'] at hp
    exact mem_cons_of_mem _ hp
  · obtain rfl : s.pid s.current = m := by cases hm; rfl
    refine ⟨(h.pids _ hcur).1, (h.pids _ hcur).2, fun p hp => ?_⟩
    rw [hk.pid]
    intro hpid
    rcases (hr.mem p).1 hp with rfl | ⟨hpa, hnz⟩
    · rw [h.pidIdle] at hpid
      exact absurd (h.pids _ hcur).1 (by omega)
    · -- two listed processes with one pid are one process
      exact hnz ((hzombie p).2 (.inl (inj_on_of_nodup_map h.pidsNodup hpa hcur hpid)))

theorem spawn_rep (ha : a ∉ s.structs) (hpos : 0 < s.nextPid) (par : Option Nat) (u : Bool) :
    Rep ((s.procAlloc a par u).schedulerRegister a) (q ++ [a]) (a :: all) := by
  have hai : a ≠ idle := fun hx => ha (hx ▸ h.alloc idle mem_cons_self)
  have haa : a ∉ all := fun hx => ha (h.alloc a (mem_cons_of_mem _ hx))
  have hac : a ∉ s.current :: q := fun hx => by
    rcases (h.mem a).1 hx with hx | hx
    · exact hai hx
    · exact haa hx.1
  have haq : a ∉ q := fun hx => hac (mem_cons_of_mem _ hx)
  have hqnd := (nodup_cons.1 h.once).2
  have hl := (h.toLinks.procAlloc par u haq haa).register hqnd haq haa
  have hne : ∀ p ∈ all, p ≠ a := fun p hp hx => haa (hx ▸ hp)
  obtain ⟨hcur, hst, hpid, hnext, hus, hstr⟩ := register_kept s a par u
  have hmap : all.map (update s.pid a s.nextPid) = all.map s.pid :=
    map_congr_left (fun p hp => update_of_ne (hne p hp) _ _)
  have hother : ∀ p ∈ s.current :: q, update s.state a .ready p = s.state p := fun p hp =>
    update_of_ne (fun (hx : p = a) => hac (hx ▸ hp)) _ _
  refine ⟨hl, ?_, ?_, fun p => ?_, fun p hp => ?_, fun p hp => ?_, ?_, fun p hp => ?_, ?_, ?_⟩
  · rw [nodup_cons, mem_cons, not_or]
    exact ⟨⟨Ne.symm hai, (nodup_cons.1 h.nodup).1⟩, nodup_cons.2 ⟨haa, (nodup_cons.1 h.nodup).2⟩⟩
  · rw [hcur, ← cons_append]
    exact nodup_append.2 ⟨h.once, nodup_singleton a, fun x hx y hy hxy =>
      hac (by rw [← mem_singleton.1 hy, ← hxy]; exact hx)⟩
  · rw [hcur, hst, ← cons_append, mem_append, mem_singleton, mem_cons (l := all)]
    by_cases hpa : p = a
    · subst hpa
      rw [update_self]
      simp
    · rw [update_of_ne hpa, h.mem p]
      simp only [hpa, or_false, false_or]
  · rw [hcur, ← cons_append, mem_append, mem_singleton] at hp
    rw [hst]
    rcases hp with hp | rfl
    · rw [hother p hp]
      exact h.runs p hp
    · exact .inl (update_self ..)
  · rw [hstr, Finset.mem_insert]
    rw [mem_cons, mem_cons] at hp
    rcases hp with rfl | rfl | hp
    · exact .inr (h.alloc _ mem_cons_self)
    · exact .inl rfl
    · exact .inr (h.alloc p (mem_cons_of_mem _ hp))
  · rw [hpid, update_of_ne (Ne.symm hai), h.pidIdle]
  · rw [hpid, hnext]
    by_cases hpa : p = a
    · rw [hpa, update_self]
      omega
    · rw [update_of_ne hpa]
      have hp' := h.pids p (mem_of_ne_of_mem hpa hp)
      omega
  · rw [hpid, map_cons, update_self, hmap, nodup_cons]
    refine ⟨fun hx => ?_, h.pidsNodup⟩
    obtain ⟨p, hp, hpe⟩ := mem_map.1 hx
    exact absurd (h.pids p hp).2 (by omega)
  · rw [hus, update_of_ne (Ne.symm hai), h.kernel]

theorem fork_next (ha : a ∉ s.structs) (hu : s.user s.current = true) :
    Next s q all ((s.procAlloc a (some s.current) true).schedulerRegister a) (q ++ [a]) (a :: all) none := by
  have hcur := (h.current_mem hu).2
  have hr := h.spawn_rep ha (by have := h.pids _ hcur; omega) (some s.current) true
  obtain ⟨hc, -, hpid, hnext, -, -⟩ := register_kept s a (some s.current) true
  generalize (s.procAlloc a (some s.current) true).schedulerRegister a = s' at *
  -- the new process has a pid nobody had
  have hold : ∀ p, s'.pid p < s.nextPid → p ≠ a ∧ s.pid p = s'.pid p := fun p hp => by
    have hpa : p ≠ a := fun hx => by rw [hx, hpid, update_self] at hp; omega
    exact ⟨hpa, by rw [hpid, update_of_ne hpa]⟩
  refine ⟨hr, by omega, fun p hp hlt => ⟨p, ?_, (hold p hlt).2⟩, fun p hp hlt => ⟨p, ?_, (hold p hlt).2⟩,
    fun n hn => (by cases hn), fun n hn => (by cases hn)⟩
  · rw [hc, ← cons_append, mem_append, mem_singleton, or_iff_left (hold p hlt).1] at hp
    exact hp
  · exact mem_of_ne_of_mem (hold p hlt).1 hp

/-- **Unlinking a zombie** and freeing its structure. -/
theorem remove {z : Nat} (hz : z ∈ all) (hzombie : s.state z = .zombie) : ∃ s1 all', s.schedulerRemove z = some s1 ∧
    Rep { s1 with structs := s1.structs.erase z } q all' ∧ Kept s { s1 with
      allHead := s.allHead, allNext := s.allNext } ∧ s1.state = s.state ∧ s1.current = s.current ∧
      ∀ p, p ∈ all' ↔ p ∈ all ∧ p ≠ z := by
  obtain ⟨l1, l2, rfl⟩ := append_of_mem hz
  have hnd : (l1 ++ z :: l2).Nodup := (nodup_cons.1 h.nodup).2
  have hz1 : z ∉ l1 := fun hx => (nodup_append.1 hnd).2.2 z hx z mem_cons_self rfl
  have hz2 : z ∉ l2 := (nodup_cons.1 (nodup_append.1 hnd).2.1).1
  have hlen : l1.length + 1 ≤ s.nextPid := by
    have hle := h.length_lt
    rw [length_append, length_cons] at hle
    omega
  have hloc : findLoc s.allNext z s.nextPid none s.allHead = some (some l1.getLast?) := by
    rw [findLoc_eq h.every hz1 hlen, or_none]
  have hrem : s.schedulerRemove z = some { s with
      allHead := (setLoc s.allNext s.allHead l1.getLast? (s.allNext z)).1
      allNext := (setLoc s.allNext s.allHead l1.getLast? (s.allNext z)).2 } := by
    unfold schedulerRemove
    rw [hloc]
  have hmem : ∀ p, p ∈ l1 ++ l2 ↔ p ∈ l1 ++ z :: l2 ∧ p ≠ z := fun p => by
    rw [mem_append, mem_append, mem_cons]
    constructor
    · rintro (hp | hp)
      · exact ⟨.inl hp, fun hx => hz1 (hx ▸ hp)⟩
      · exact ⟨.inr (.inr hp), fun hx => hz2 (hx ▸ hp)⟩
    · rintro ⟨hp, hne⟩
      rwa [or_iff_right hne] at hp
  have hsl : (l1 ++ l2).Sublist (l1 ++ z :: l2) := List.Sublist.append_left (sublist_cons_self z l2) l1
  refine ⟨_, l1 ++ l2, hrem, ⟨⟨h.ready, h.tail, h.every.unlink hnd⟩, ?_, h.once, fun p => ?_, h.runs, fun p hp => ?_, h.pidIdle,
    fun p hp => h.pids p ((hmem p).1 hp).1, ?_, h.kernel⟩, ⟨rfl, rfl, rfl, rfl, rfl, rfl, rfl⟩, rfl, rfl, hmem⟩
  · exact h.nodup.sublist (hsl.cons_cons idle)
  · refine (h.mem p).trans (or_congr Iff.rfl (and_congr_left (fun hs => ?_)))
    rw [hmem]
    exact (and_iff_left (fun (hx : p = z) => hs (by rw [hx]; exact hzombie))).symm
  · rw [Finset.mem_erase]
    rcases mem_cons.1 hp with rfl | hp
    · exact ⟨fun hx => (nodup_cons.1 h.nodup).1 (hx ▸ hz), h.alloc _ mem_cons_self⟩
    · exact ⟨((hmem p).1 hp).2, h.alloc p (mem_cons_of_mem _ ((hmem p).1 hp).1)⟩
  · exact h.pidsNodup.sublist (hsl.map s.pid)

theorem reap_eq (pid : Int) : s.schedulerReap s.current pid = some (all.find? (s.reapable s.current pid)) :=
  scan_eq _ h.every h.length_lt

end

theorem find_reapable {par pid z} (hf : all.find? (s.reapable par pid) = some z) :
    z ∈ all ∧ s.state z = .zombie ∧ s.parent z = some par := by
  have hp := find?_some hf
  unfold reapable at hp
  simp only [Bool.and_eq_true, beq_iff_eq] at hp
  exact ⟨mem_of_find?_eq_some hf, hp.1⟩

theorem wait_next (h : Rep s q all) (pid : Int) : ∃ q' all', Next s q all (s.waitTurn pid).1 q' all' (s.waitTurn pid).2 := by
  unfold waitTurn
  rw [h.reap_eq]
  cases hf : all.find? (s.reapable s.current pid) with
  | none =>
    obtain ⟨q', hn⟩ := h.yield_next
    exact ⟨q', all, hn⟩
  | some z =>
    obtain ⟨hz, hzombie, -⟩ := find_reapable hf
    obtain ⟨s1, all', hrem, hr, hk, -, hcur, hmem⟩ := h.remove hz hzombie
    have hpid : s1.pid = s.pid := hk.pid
    dsimp only
    rw [hrem]
    refine ⟨q, all', hr, hk.nextPid.ge, fun p hp _ => ⟨p, ?_, by rw [← hpid]⟩,
      fun p hp _ => ⟨p, ((hmem p).1 hp).1, by rw [← hpid]⟩, fun n hn => (by cases hn), fun n hn => ?_⟩
    · rw [← hcur]
      exact hp
    · obtain rfl : s.pid z = n := by cases hn; rfl
      refine ⟨(h.pids z hz).1, (h.pids z hz).2, fun p hp hpe => ?_⟩
      have hpz : s.pid p = s.pid z := (congrFun hpid p).symm.trans hpe
      exact ((hmem p).1 hp).2 (inj_on_of_nodup_map h.pidsNodup ((hmem p).1 hp).1 hz hpz)

theorem step_next (h : Rep s q all) (e : Event) : ∃ q' all', Next s q all (s.step e).1 q' all' (s.step e).2 := by
  have hsame : Next s q all s q all none :=
    next_of_kept h ⟨rfl, rfl, rfl, rfl, rfl, rfl, rfl⟩ (fun _ hp => hp)
  cases e with
  | yield =>
    obtain ⟨q', hn⟩ := h.yield_next
    exact ⟨q', all, hn⟩
  | tick fatal =>
    obtain ⟨q', hn⟩ := h.tick_next
    cases fatal with
    | none => exact ⟨q', all, hn⟩
    | some sig =>
      simp only [step]
      split
      · rename_i hu
        obtain ⟨q', hn⟩ := h.exit_next hu (128 + sig)
        exact ⟨q', all, hn⟩
      · exact ⟨q', all, hn⟩
  | fork a =>
    simp only [step]
    split
    · rename_i hc
      exact ⟨q ++ [a], a :: all, h.fork_next hc.2 hc.1⟩
    · exact ⟨q, all, hsame⟩
  | exit code =>
    simp only [step]
    split
    · rename_i hu
      obtain ⟨q', hn⟩ := h.exit_next hu code
      exact ⟨q', all, hn⟩
    · exact ⟨q, all, hsame⟩
  | waitpid pid =>
    simp only [step]
    split
    · exact h.wait_next pid
    · exact ⟨q, all, hsame⟩

/-- **A whole run.**  A pid that has left the queue, or the global list, does not come back. -/
theorem run_next : ∀ (es : List Event) {s : Sched} {q all : List Nat}, Rep s q all → let r := run step s es
    ∃ q' all', Rep r.1 q' all' ∧
      (∀ p ∈ r.1.current :: q', r.1.pid p < s.nextPid → ∃ p' ∈ s.current :: q, s.pid p' = r.1.pid p) ∧
      (∀ p ∈ all', r.1.pid p < s.nextPid → ∃ p' ∈ all, s.pid p' = r.1.pid p) ∧
      (∀ n, some (.exited n) ∈ r.2 → ∀ p ∈ r.1.current :: q', r.1.pid p ≠ n) ∧
      (∀ n, some (.reaped n) ∈ r.2 → 0 < n ∧ ∀ p ∈ all', r.1.pid p ≠ n)
  | [], s, q, all, h => ⟨q, all, h, fun p hp _ => ⟨p, hp, rfl⟩, fun p hp _ => ⟨p, hp, rfl⟩,
      fun n hn => absurd hn (not_mem_nil), fun n hn => absurd hn (not_mem_nil)⟩
  | e :: es, s, q, all, h => by
    obtain ⟨q1, all1, hn⟩ := h.step_next e
    obtain ⟨q', all', hr, hrun, hlist, hex, hre⟩ := run_next es hn.rep
    rw [run_cons]
    refine ⟨q', all', hr, fun p hp hlt => ?_, fun p hp hlt => ?_, fun n hmem p hp => ?_, fun n hmem => ?_⟩
    · obtain ⟨p1, hp1, he1⟩ := hrun p hp (lt_of_lt_of_le hlt hn.grows)
      obtain ⟨p0, hp0, he0⟩ := hn.running p1 hp1 (he1 ▸ hlt)
      exact ⟨p0, hp0, he0.trans he1⟩
    · obtain ⟨p1, hp1, he1⟩ := hlist p hp (lt_of_lt_of_le hlt hn.grows)
      obtain ⟨p0, hp0, he0⟩ := hn.listed p1 hp1 (he1 ▸ hlt)
      exact ⟨p0, hp0, he0.trans he1⟩
    · rcases mem_cons.1 hmem with hx | hx
      · obtain ⟨-, hlt, hgone⟩ := hn.exited n hx.symm
        intro hpid
        obtain ⟨p1, hp1, he1⟩ := hrun p hp (hpid ▸ lt_of_lt_of_le hlt hn.grows)
        exact hgone p1 hp1 (he1.trans hpid)
      · exact hex n hx p hp
    · rcases mem_cons.1 hmem with hx | hx
      · obtain ⟨hpos, hlt, hgone⟩ := hn.reaped n hx.symm
        refine ⟨hpos, fun p hp hpid => ?_⟩
        obtain ⟨p1, hp1, he1⟩ := hlist p hp (hpid ▸ lt_of_lt_of_le hlt hn.grows)
        exact hgone p1 hp1 (he1.trans hpid)
      · exact hre n hx

end Rep

theorem spawned_rep (up hb : Nat) (hup : up ≠ idle) (hhb : hb ≠ idle) (hne : up ≠ hb) :
    let r := spawned up hb
    Rep r [up, hb] [hb, up] ∧ r.current = idle ∧ r.structs = {hb, up, idle} ∧ (∀ p, r.state p ≠ .zombie) ∧ r.user up = true := by
  have h0 : Rep schedulerInit [] [] := by
    refine ⟨⟨rfl, rfl, rfl⟩, ?_, ?_, fun p => ?_, fun p _ => .inr rfl, fun p hp => ?_, rfl, fun p hp => ?_, ?_, rfl⟩
    · exact nodup_singleton _
    · exact nodup_singleton _
    · simp [schedulerInit]
    · rw [mem_singleton.1 hp]
      exact Finset.mem_singleton_self _
    · exact absurd hp not_mem_nil
    · exact nodup_nil
  have h1 := h0.spawn_rep (a := up) (fun hx => hup (Finset.mem_singleton.1 hx)) (by decide) none true
  unfold spawned
  dsimp only
  have hk1 := register_kept schedulerInit up none true
  generalize hs1 : (schedulerInit.procAlloc up none true).schedulerRegister up = s1 at *
  have h2 := h1.spawn_rep (a := hb) (by rw [hk1.structs]; simp [schedulerInit, hhb, Ne.symm hne]) (by rw [hk1.nextPid]; decide)
    none false
  have hk2 := register_kept s1 hb none false
  refine ⟨h2, hk2.current.trans hk1.current, ?_, fun p => ?_, ?_⟩
  · rw [hk2.structs, hk1.structs]
    rfl
  · rw [hk2.state, hk1.state]
    by_cases hph : p = hb
    · rw [hph, update_self]
      decide
    rw [update_of_ne hph]
    by_cases hpu : p = up
    · rw [hpu, update_self]
      decide
    · rw [update_of_ne hpu]
      exact fun hx => by cases hx
  · rw [hk2.user, hk1.user, update_of_ne hne, update_self]

theorem boot_rep {up hb : Nat} (hup : up ≠ idle) (hhb : hb ≠ idle) (hne : up ≠ hb) : ∃ q all, Rep (boot up hb) q all :=
  ⟨_, _, (spawned_rep up hb hup hhb hne).1.yield_spec.1⟩

/-- **The scheduler's invariant.**  In every state a run from the boot sequence reaches: the ready queue is a
`NULL`-terminated list that ends in `g_ready_tail`; the running process and the queue are the idle context and the
registered processes that are not zombies, each once; no pid that has exited runs or waits to run, no pid that has been
reaped is in the queue or in the global list; the global list has no duplicates; and whoever exits finds somebody to switch
to. -/
theorem scheduler_invariant (up hb : Nat) (hup : up ≠ idle) (hhb : hb ≠ idle) (hne : up ≠ hb) (es : List Event) :
    ∃ q all, Chain (run step (boot up hb) es).1.next (run step (boot up hb) es).1.readyHead q ∧
      (run step (boot up hb) es).1.readyTail = q.getLast? ∧
      Chain (run step (boot up hb) es).1.allNext (run step (boot up hb) es).1.allHead all ∧
      all.Nodup ∧ ((run step (boot up hb) es).1.current :: q).Nodup ∧ (∀ p, p ∈ (run step (boot up hb) es).1.current :: q ↔
        p = idle ∨ p ∈ all ∧ (run step (boot up hb) es).1.state p ≠ .zombie) ∧
      (∀ p ∈ (run step (boot up hb) es).1.current :: q, (run step (boot up hb) es).1.state p ≠ .zombie) ∧
      (∀ n, some (.exited n) ∈ (run step (boot up hb) es).2 →
        ∀ p ∈ (run step (boot up hb) es).1.current :: q, (run step (boot up hb) es).1.pid p ≠ n) ∧
      (∀ n, some (.reaped n) ∈ (run step (boot up hb) es).2 →
        ∀ p ∈ (run step (boot up hb) es).1.current :: q ++ all, (run step (boot up hb) es).1.pid p ≠ n) ∧
      ((run step (boot up hb) es).1.current ≠ idle → (run step (boot up hb) es).1.readyHead ≠ none) := by
  obtain ⟨q0, all0, h0⟩ := boot_rep hup hhb hne
  obtain ⟨q, all, h, -, -, hex, hre⟩ := h0.run_next es
  refine ⟨q, all, h.ready, h.tail, h.every, (nodup_cons.1 h.nodup).2, h.once, h.mem, fun p hp => h.not_zombie hp, hex,
    fun n hn p hp hpid => ?_, fun hcur => ?_⟩
  · obtain ⟨hpos, hgone⟩ := hre n hn
    rcases mem_append.1 hp with hp | hp
    · rcases (h.mem p).1 hp with rfl | ⟨hpa, -⟩
      · exact absurd (h.pidIdle.symm.trans hpid) (by omega)
      · exact hgone p hpa hpid
    · exact hgone p hp hpid
  · obtain ⟨n, q', rfl⟩ := h.queue_ne_nil hcur
    rw [h.ready.1]
    exact some_ne_none n

/-- The shell forks, waits for its child, which exits, and reaps it. -/
theorem scheduler_invariant_fork_wait :
    (run step (boot 1 2) [.fork 3, .waitpid 0, .tick none, .yield, .yield, .exit 7, .waitpid (-1)]).2 =
        [none, none, none, none, none, some (.exited 3), some (.reaped 3)] ∧
      (run step (boot 1 2) [.fork 3, .waitpid 0, .tick none, .yield, .yield, .exit 7, .waitpid (-1)]).1.readyHead ≠ none :=
  ⟨by decide, by
    obtain ⟨_, _, -, -, -, -, -, -, -, -, -, h⟩ := scheduler_invariant 1 2 (by decide) (by decide) (by decide)
      [.fork 3, .waitpid 0, .tick none, .yield, .yield, .exit 7, .waitpid (-1)]
    exact h (by decide)⟩

end Sched
end Noxis
