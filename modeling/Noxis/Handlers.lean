import Noxis.Task
import Noxis.Signal
import Noxis.Reused
/-!
# Handlers — signal handlers and the program image they belong to (`proc/signal.c`, `sys_fork`, `sys_exec`)

A handler is an address in the program that installed it.  `Tasks.step` is one system call or signal delivery of some process;
its output notes the calls that succeeded.  The notes of a process and of the ancestors it was forked from make up its `line`,
and `OwnHandlers` says that every handler was installed on that line after the last exec.  `sys_exec` replaces the image but not
the table: `handlers_of_image` holds for runs in which no process with a handler calls exec, and `exec_keeps_handler` is a run
with one that does.
-/
namespace Noxis

open List Function Process
namespace Tasks

/-! ## The calls -/

def sysSignal (s : Tasks) (cur : Nat) (sig : Int) (h : Nat) : Tasks × Int :=
  if hs : sig ≤ 0 ∨ 32 ≤ sig then (s, -1)
  else ({ s with mem := update s.mem cur { s.mem cur with
    sigHandler := update (s.mem cur).sigHandler ⟨sig.toNat, by omega⟩ h } }, 0)

def sysKill (s : Tasks) (pid sig : Int) : Tasks × Int :=
  if sig ≤ 0 ∨ 32 ≤ sig then (s, -1)
  else match s.k.procs.find? (fun p => (p.pid : Int) == pid) with
    | none => (s, -1)
    | some t => ({ s with mem := update s.mem t.addr { s.mem t.addr with
        sigPending := (s.mem t.addr).sigPending ||| (1#32 <<< sig.toNat) } }, 0)

local instance : NeZero 128 := ⟨by decide⟩

/-- What `sys_exec` rewrites in the caller's structure; `np` has the new address space, `root` is the root inode. -/
def execProc (p : ProcT) (np : Process) (root : Nat) : ProcT :=
  { p with
    pml4 := np.pml4
    stackLow := np.stackLow
    brk := np.brk
    cwdIno := if p.cwdIno = 0 then root else p.cwdIno
    cwdPath := if p.cwdIno = 0 then update (update p.cwdPath 0 47) 1 0 else p.cwdPath }

/-- `sys_exec` by the process at `cur`, which has place `i` in the list of processes. -/
def sysExec (s : Tasks) (i cur : Nat) (prog : Option Image) (argv : List (List UInt8)) (root : Nat) : Tasks × Int :=
  let r := Noxis.sysExec s.k i ((s.mem cur).proc cur) prog argv
  if r.2 = .value 0 then
    ({ s with k := r.1, mem := update s.mem cur (execProc (s.mem cur) ((r.1.procs[i]?).getD ((s.mem cur).proc cur)) root) }, 0)
  else ({ s with k := r.1 }, -1)

def signals (s : Tasks) (cur : Nat) : Signals :=
  ⟨(s.mem cur).sigPending, fun n => if h : n < 32 then (s.mem cur).sigHandler ⟨n, h⟩ else 0⟩

/-- Signals delivered on the way back to ring 3: `deliver_signals` and `deliver_signals_isr` are the same loop over the frame
they are given.  The frame comes back when it has been redirected. -/
def deliver (s : Tasks) (i cur : Nat) (m : Nat → UInt8) (f : IsrFrame) : Tasks × Option IsrFrame :=
  match deliverSignalsIsr (s.signals cur) m f with
  | .back p => ({ s with mem := update s.mem cur { s.mem cur with sigPending := p.pending } }, none)
  | .redirected p _ f => ({ s with mem := update s.mem cur { s.mem cur with sigPending := p.pending } }, some f)
  | .exited code =>
    ({ s with k := (Noxis.sysExit s.k i ((s.mem cur).proc cur) code).1
              mem := update s.mem cur { s.mem cur with state := .zombie, exitCode := code } }, none)

inductive Act where
  | signal (sig : Int) (h : Nat)
  | kill (pid sig : Int)
  | fork (addr stack : Nat)
  | exec (prog : Option Image) (argv : List (List UInt8)) (root : Nat)
  | deliver (m : Nat → UInt8) (f : IsrFrame)

inductive Note where
  | signal (p : Nat) (sig : Int) (h : Nat)
  | fork (p child : Nat)
  | exec (p : Nat)
  | jump (p : Nat) (rip : Nat)

def live (s : Tasks) : List Nat := s.k.procs.map Process.addr

/-- The process at `cur`, which is in the list at place `i`, makes a call; `kmalloc` answers memory that is not in use. -/
def call (s : Tasks) (i cur : Nat) : Act → Tasks × Option Note
  | .signal sig h => ((s.sysSignal cur sig h).1, if (s.sysSignal cur sig h).2 = 0 then some (.signal cur sig h) else none)
  | .kill pid sig => ((s.sysKill pid sig).1, none)
  | .fork addr stack =>
    if addr ∈ s.live then (s, none)
    else ((s.sysFork cur addr stack).1, if (s.sysFork cur addr stack).2 = -1 then none else some (.fork cur addr))
  | .exec prog argv root =>
    ((s.sysExec i cur prog argv root).1, if (s.sysExec i cur prog argv root).2 = 0 then some (.exec cur) else none)
  | .deliver m f => ((s.deliver i cur m f).1, (s.deliver i cur m f).2.map fun f => .jump cur f.rip)

def step (s : Tasks) (c : Nat × Act) : Tasks × Option Note :=
  match s.k.procs.findIdx? (fun p => p.addr == c.1) with
  | none => (s, none)
  | some i => if (s.mem c.1).state = .zombie then (s, none) else s.call i c.1 c.2

/-! ## Lines -/

def note (L : Nat → List Note) : Option Note → Nat → List Note
  | none => L
  | some (.signal p sig h) => update L p (L p ++ [.signal p sig h])
  | some (.exec p) => update L p (L p ++ [.exec p])
  | some (.fork p child) => update L child (L p)
  | some (.jump _ _) => L

def lines (L : Nat → List Note) (notes : List (Option Note)) : Nat → List Note := notes.foldl note L

/-- The handler `h` of signal `sig` was installed on this line, with no exec after it. -/
def Installed (l : List Note) (sig : Fin 32) (h : Nat) : Prop :=
  ∃ p l1 l2, l = l1 ++ .signal p sig.val h :: l2 ∧ ∀ q, Note.exec q ∉ l2

/-- **Every handler belongs to the running image.** -/
def OwnHandlers (s : Tasks) (L : Nat → List Note) : Prop :=
  ∀ a ∈ s.live, ∀ sig, (s.mem a).sigHandler sig ≠ 0 → Installed (L a) sig ((s.mem a).sigHandler sig)

theorem Installed.snoc {l : List Note} {sig : Fin 32} {h : Nat} (hi : Installed l sig h) {n : Note} (hn : ∀ q, n ≠ .exec q) :
    Installed (l ++ [n]) sig h := by
  obtain ⟨p, l1, l2, rfl, hno⟩ := hi
  refine ⟨p, l1, l2 ++ [n], by simp, fun q hq => ?_⟩
  rcases mem_append.1 hq with hq | hq
  · exact hno q hq
  · exact hn q (mem_singleton.1 hq).symm

/-! ## One step -/

section
variable {s s' : Tasks} {L : Nat → List Note} {i cur : Nat}

theorem OwnHandlers.congr (h : OwnHandlers s L) (hlive : s'.live = s.live)
    (hmem : ∀ a ∈ s.live, (s'.mem a).sigHandler = (s.mem a).sigHandler) : OwnHandlers s' L := by
  intro a ha sig h0
  rw [hlive] at ha
  rw [hmem a ha] at h0 ⊢
  exact h a ha sig h0

theorem sigHandler_update (mem : Nat → ProcT) (c : Nat) {p : ProcT} (hp : p.sigHandler = (mem c).sigHandler) (a : Nat) :
    (update mem c p a).sigHandler = (mem a).sigHandler := by
  by_cases ha : a = c
  · rw [ha, update_self, hp]
  · rw [update_of_ne ha]

theorem live_set {k : Kernel} (hi : (k.procs.map addr)[i]? = some cur) (p : Process) (hp : p.addr = cur) :
    (k.procs.set i p).map addr = k.procs.map addr := by
  rw [map_set, hp]
  obtain ⟨hlt, hget⟩ := List.getElem?_eq_some_iff.1 hi
  rw [← hget]
  exact set_getElem_self hlt

theorem sysSignal_own (h : OwnHandlers s L) (sig : Int) (x : Nat) :
    OwnHandlers (s.sysSignal cur sig x).1 (note L (if (s.sysSignal cur sig x).2 = 0 then some (.signal cur sig x) else none)) := by
  unfold sysSignal
  by_cases hs : sig ≤ 0 ∨ 32 ≤ sig
  · rw [dif_pos hs, if_neg (by simp)]
    exact h
  rw [dif_neg hs, if_pos rfl]
  intro a ha n h0
  by_cases hac : a = cur
  · subst hac
    simp only [note, update_self] at h0 ⊢
    by_cases hn : n = ⟨sig.toNat, by omega⟩
    · rw [hn, update_self]
      refine ⟨a, L a, [], ?_, fun q hq => (by cases hq)⟩
      rw [show ((⟨sig.toNat, by omega⟩ : Fin 32).val : Int) = sig by show (sig.toNat : Int) = sig; omega]
    · rw [update_of_ne hn] at h0 ⊢
      exact (h a ha n h0).snoc (fun q hq => by cases hq)
  · simp only [note, update_of_ne hac] at h0 ⊢
    exact h a ha n h0

theorem sysKill_own (h : OwnHandlers s L) (pid sig : Int) : OwnHandlers (s.sysKill pid sig).1 L := by
  unfold sysKill
  split
  · exact h
  split
  · exact h
  · refine h.congr rfl (fun a _ => ?_)
    apply sigHandler_update
    rfl

theorem live_schedulerRegister (s : Tasks) (p : Nat) : (s.schedulerRegister p).live = s.live := by
  unfold schedulerRegister schedulerAdd
  simp only
  split <;> rfl

theorem sysFork_live (s : Tasks) (cur addr stack : Nat) :
    let w := s.sysFork cur addr stack
    (w.2 = -1 → w.1.live = s.live ∧ w.1.mem = s.mem) ∧ (w.2 ≠ -1 → w.1.live = addr :: s.live) := by
  have haddrs : ∀ k : Kernel, k.procs.map Process.addr = k.keys.map Prod.fst := fun k => by
    unfold Kernel.keys
    rw [map_map]
    rfl
  have hkeys := sysFork_keys s.k ((s.mem cur).proc cur) (if stack = 0 then 0 else addr)
  unfold sysFork
  simp only
  generalize Noxis.sysFork s.k ((s.mem cur).proc cur) (if stack = 0 then 0 else addr) = r at hkeys ⊢
  by_cases hpid : r.1.nextPid = s.k.nextPid
  · rw [if_pos hpid]
    refine ⟨fun _ => ⟨?_, rfl⟩, fun hne => absurd rfl hne⟩
    rcases hkeys with ⟨-, hk⟩ | ⟨hn, -⟩
    · show r.1.procs.map Process.addr = s.k.procs.map Process.addr
      rw [haddrs, haddrs, hk]
    · omega
  · rw [if_neg hpid]
    refine ⟨fun hneg => ?_, fun _ => ?_⟩
    · simp only at hneg
      omega
    · rcases hkeys with ⟨hn, -⟩ | ⟨-, h0, hk⟩
      · exact absurd hn hpid
      · have hst : stack ≠ 0 := by
          rintro rfl
          exact h0 rfl
        rw [live_schedulerRegister]
        show r.1.procs.map Process.addr = addr :: s.k.procs.map Process.addr
        rw [haddrs, haddrs, hk, if_neg hst]
        rfl

theorem sysFork_own (h : OwnHandlers s L) (hcur : cur ∈ s.live) {addr : Nat} (hfresh : addr ∉ s.live) (stack : Nat) :
    OwnHandlers (s.sysFork cur addr stack).1
      (note L (if (s.sysFork cur addr stack).2 = -1 then none else some (.fork cur addr))) := by
  obtain ⟨hfail, hlive⟩ := sysFork_live s cur addr stack
  by_cases hok : (s.sysFork cur addr stack).2 = -1
  · rw [if_pos hok]
    obtain ⟨hl, hm⟩ := hfail hok
    exact h.congr hl (fun a _ => by rw [hm])
  rw [if_neg hok]
  have hl := hlive hok
  obtain ⟨pml4, k, pipes, heq⟩ := sysFork_ok hok
  -- queueing the child touches links only
  have hmem : ∀ a, ((s.sysFork cur addr stack).1.mem a).sigHandler =
      (update s.mem addr (s.childOf cur addr stack pml4) a).sigHandler := by
    intro a
    rw [heq]
    obtain ⟨n, l, hreg, -⟩ := mem_schedulerRegister { s with
      k := k, mem := update s.mem addr (s.childOf cur addr stack pml4), pipes := pipes } addr a
    simp only
    rw [hreg]
  intro a ha sig h0
  rw [hl] at ha
  rw [hmem] at h0 ⊢
  by_cases haa : a = addr
  · subst haa
    simp only [note, update_self] at h0 ⊢
    exact h cur hcur sig h0
  · simp only [note, update_of_ne haa] at h0 ⊢
    exact h a ((mem_cons.1 ha).resolve_left haa) sig h0

theorem sysExec_live (hi : s.live[i]? = some cur) (prog : Option Image) (argv : List (List UInt8)) :
    (Noxis.sysExec s.k i ((s.mem cur).proc cur) prog argv).1.procs.map addr = s.live := by
  unfold Noxis.sysExec
  cases prog with
  | none => rfl
  | some img =>
    simp only
    split
    · rfl
    split
    · rfl
    · split
      · rfl
      · exact live_set hi _ rfl

theorem sysExec_own (h : OwnHandlers s L) (hi : s.live[i]? = some cur) (prog : Option Image) (argv : List (List UInt8)) (root : Nat)
    (hclear : ∀ sig, (s.mem cur).sigHandler sig = 0) : OwnHandlers (s.sysExec i cur prog argv root).1
      (note L (if (s.sysExec i cur prog argv root).2 = 0 then some (.exec cur) else none)) := by
  have hlive := sysExec_live hi prog argv
  unfold sysExec
  simp only
  generalize Noxis.sysExec s.k i ((s.mem cur).proc cur) prog argv = r at hlive ⊢
  by_cases hok : r.2 = .value 0
  · rw [if_pos hok, if_pos rfl]
    intro a ha sig h0
    by_cases hac : a = cur
    · subst hac
      simp only [update_self] at h0
      exact absurd (hclear sig) h0
    · simp only [note, update_of_ne hac] at h0 ⊢
      exact h a (by rw [← hlive]; exact ha) sig h0
  · rw [if_neg hok, if_neg (by simp)]
    exact h.congr hlive (fun _ _ => rfl)

theorem deliver_own (h : OwnHandlers s L) (hi : s.live[i]? = some cur) (m : Nat → UInt8) (f : IsrFrame) :
    OwnHandlers (s.deliver i cur m f).1 L := by
  unfold deliver
  split
  · refine h.congr rfl (fun a _ => ?_)
    apply sigHandler_update
    rfl
  · refine h.congr rfl (fun a _ => ?_)
    apply sigHandler_update
    rfl
  · refine h.congr (live_set hi _ rfl) (fun a _ => ?_)
    apply sigHandler_update
    rfl

/-- No process that has a handler calls exec. -/
def ExecClear (s : Tasks) (c : Nat × Act) : Prop :=
  match c.2 with
  | .exec _ _ _ => ∀ sig, (s.mem c.1).sigHandler sig = 0
  | _ => True

/-- **One step** adds its note to the lines. -/
theorem step_own (h : OwnHandlers s L) (c : Nat × Act) (hc : ExecClear s c) : OwnHandlers (s.step c).1 (note L (s.step c).2) := by
  obtain ⟨cur, act⟩ := c
  unfold step
  cases hf : s.k.procs.findIdx? (fun p => p.addr == cur) with
  | none => exact h
  | some i =>
    simp only
    obtain ⟨hlt, hget, -⟩ := findIdx?_eq_some_iff_getElem.1 hf
    have hi : s.live[i]? = some cur := by
      unfold live
      rw [getElem?_map, getElem?_eq_getElem hlt, Option.map_some]
      exact congrArg some (beq_iff_eq.1 hget)
    split
    · exact h
    cases act with
    | signal sig x => exact sysSignal_own h sig x
    | kill pid sig => exact sysKill_own h pid sig
    | fork addr stack =>
      simp only [call]
      split
      · exact h
      · next hfresh => exact sysFork_own h (mem_of_getElem? hi) hfresh stack
    | exec prog argv root => exact sysExec_own h hi prog argv root hc
    | deliver m f =>
      simp only [call]
      cases (s.deliver i cur m f).2 <;> exact deliver_own h hi m f

theorem step_jump {c : Nat × Act} {p rip : Nat} (h : (s.step c).2 = some (.jump p rip)) :
    p ∈ s.live ∧ ∃ sig, (s.mem p).sigHandler sig ≠ 0 ∧ rip = (s.mem p).sigHandler sig := by
  obtain ⟨cur, act⟩ := c
  unfold step at h
  cases hf : s.k.procs.findIdx? (fun p => p.addr == cur) with
  | none =>
    rw [hf] at h
    cases h
  | some i =>
    rw [hf] at h
    simp only at h
    obtain ⟨hlt, hget, -⟩ := findIdx?_eq_some_iff_getElem.1 hf
    have hlive : cur ∈ s.live := mem_map.2 ⟨_, getElem_mem hlt, beq_iff_eq.1 hget⟩
    split at h
    · cases h
    cases act with
    | signal sig x =>
      simp only [call] at h
      split at h <;> cases h
    | kill pid sig => cases h
    | fork addr stack =>
      simp only [call] at h
      split at h
      · cases h
      · split at h <;> cases h
    | exec prog argv root =>
      simp only [call] at h
      split at h <;> cases h
    | deliver m f =>
      simp only [call, deliver] at h
      split at h
      · cases h
      · next q m' f' hd =>
        obtain ⟨n, hn, hrip⟩ := deliverSignalsIsr_redirected hd
        simp only [Option.map_some, Option.some.injEq, Note.jump.injEq] at h
        obtain ⟨rfl, rfl⟩ := h
        simp only [signals] at hn hrip
        by_cases hlt : n < 32
        · rw [dif_pos hlt] at hn hrip
          exact ⟨hlive, ⟨n, hlt⟩, hn, hrip⟩
        · rw [dif_neg hlt] at hn
          exact absurd rfl hn
      · cases h

theorem run_own : ∀ (cs : List (Nat × Act)) (s : Tasks) (L : Nat → List Note), OwnHandlers s L →
    (∀ pre c post, cs = pre ++ c :: post → ExecClear (run step s pre).1 c) →
    OwnHandlers (run step s cs).1 (lines L (run step s cs).2)
  | [], _, _, h, _ => h
  | c :: cs, s, L, h, hclear => by
    have h1 := step_own h c (hclear [] c cs rfl)
    exact run_own cs (s.step c).1 (note L (s.step c).2) h1 (fun pre d post hp => hclear (c :: pre) d post (by rw [hp]; rfl))

/-- **Handlers belong to the running image**, in every run in which no process that has a handler calls exec: from a state
without handlers, every handler was installed on the process's line after the last exec, and every redirected frame goes to such a
handler. -/
theorem handlers_of_image (s : Tasks) (hnone : ∀ a ∈ s.live, ∀ sig, (s.mem a).sigHandler sig = 0) (cs : List (Nat × Act))
    (hclear : ∀ pre c post, cs = pre ++ c :: post → ExecClear (run step s pre).1 c) :
    OwnHandlers (run step s cs).1 (lines (fun _ => []) (run step s cs).2) ∧
    ∀ pre c post, cs = pre ++ c :: post → ∀ p rip, ((run step s pre).1.step c).2 = some (.jump p rip) →
      ∃ sig, Installed (lines (fun _ => []) (run step s pre).2 p) sig rip := by
  have h0 : OwnHandlers s (fun _ => []) := fun a ha sig hne => absurd (hnone a ha sig) hne
  refine ⟨run_own cs s _ h0 hclear, fun pre c post hp p rip hjump => ?_⟩
  have hpre := run_own pre s _ h0 (fun pre' d post' hp' =>
    hclear pre' d (post' ++ c :: post) (by rw [hp, hp', append_assoc, cons_append]))
  obtain ⟨hlive, sig, hne, rfl⟩ := step_jump hjump
  exact ⟨sig, hpre p hlive sig hne⟩

end

/-! ## A handler that outlives its image -/

theorem sysExec_bare {k : Kernel} (hs : Shape k.vm k.roots) {m : Nat} (hroom : Room k.vm.pmm (m + 5)) (i : Nat) (cur : Process) :
    (Noxis.sysExec k i cur (some bareImage) []).2 = .value 0 ∧
    ∃ p, (Noxis.sysExec k i cur (some bareImage) []).1.procs = k.procs.set i p ∧ p.addr = cur.addr ∧ p.pid = cur.pid := by
  obtain ⟨-, h0, hmap, -⟩ := exec_beside hs.nframes hs.kern hroom
  unfold Noxis.sysExec
  simp only [bareImage_load]
  rw [if_neg h0, if_neg (by decide : ¬ (1 = 0)), if_neg hmap]
  exact ⟨rfl, _, rfl, rfl, rfl⟩

def userFrame : IsrFrame := ⟨List.replicate 15 0, 0x401234, 0x23, 0x7FF000⟩

def keepRun : List (Nat × Act) :=
  [(0x1000, .signal 10 0x400800), (0x1000, .exec (some bareImage) [] 0), (0x1000, .kill 1 10), (0x1000, .deliver (fun _ => 0) userFrame)]

structure Single (s : Tasks) (p : Process) : Prop where
  procs : s.k.procs = [p]
  addr : p.addr = 0x1000
  pid : p.pid = 1
  state : (s.mem 0x1000).state ≠ .zombie
  pidOf : (s.mem 0x1000).pid = 1

section
variable {s : Tasks} {p : Process}

theorem Single.step_eq (h : Single s p) (a : Act) : s.step (0x1000, a) = s.call 0 0x1000 a := by
  unfold step
  simp only [h.procs]
  rw [show [p].findIdx? (fun q => q.addr == 0x1000) = some 0 by simp [h.addr]]
  simp only
  rw [if_neg h.state]

theorem Single.signal (h : Single s p) (x : Nat) : ∃ s', s.step (0x1000, .signal 10 x) = (s', some (.signal 0x1000 10 x)) ∧
    Single s' p ∧ s'.k = s.k ∧ (s'.mem 0x1000).sigHandler = update (s.mem 0x1000).sigHandler 10 x ∧
    (s'.mem 0x1000).sigPending = (s.mem 0x1000).sigPending := by
  rw [h.step_eq]
  refine ⟨_, rfl, ⟨h.procs, h.addr, h.pid, ?_, ?_⟩, rfl, ?_, ?_⟩ <;> simp only [sysSignal]
  · exact h.state
  · exact h.pidOf
  · rfl
  · rfl

theorem Single.exec (h : Single s p) (hs : Shape s.k.vm s.k.roots) {m : Nat} (hroom : Room s.k.vm.pmm (m + 5)) :
    ∃ s' p', s.step (0x1000, .exec (some bareImage) [] 0) = (s', some (.exec 0x1000)) ∧ Single s' p' ∧
    (s'.mem 0x1000).sigHandler = (s.mem 0x1000).sigHandler ∧ (s'.mem 0x1000).sigPending = (s.mem 0x1000).sigPending := by
  set r := (s.mem 0x1000).proc 0x1000
  obtain ⟨hret, q, hprocs, hqa, hqpid⟩ := sysExec_bare hs hroom 0 r
  have hex : s.sysExec 0 0x1000 (some bareImage) [] 0 = ({ s with
      k := (Noxis.sysExec s.k 0 r (some bareImage) []).1
      mem := update s.mem 0x1000 (execProc (s.mem 0x1000) (((Noxis.sysExec s.k 0 r
        (some bareImage) []).1.procs[0]?).getD r) 0) }, 0) := by
    unfold sysExec
    simp only
    rw [if_pos hret]
  rw [h.step_eq]
  simp only [call, hex, if_true]
  refine ⟨_, q, rfl, ⟨?_, hqa, hqpid.trans h.pidOf, ?_, ?_⟩, ?_, ?_⟩ <;> simp only [update_self]
  · rw [hprocs, h.procs]
    rfl
  · exact h.state
  · exact h.pidOf
  · rfl
  · rfl

theorem Single.kill (h : Single s p) : ∃ s', s.step (0x1000, .kill 1 10) = (s', none) ∧ Single s' p ∧
    (s'.mem 0x1000).sigHandler = (s.mem 0x1000).sigHandler ∧
    (s'.mem 0x1000).sigPending = (s.mem 0x1000).sigPending ||| (1#32 <<< 10) := by
  have hk : s.sysKill 1 10 = ({ s with mem := update s.mem 0x1000 { s.mem 0x1000 with
      sigPending := (s.mem 0x1000).sigPending ||| (1#32 <<< 10) } }, 0) := by
    unfold sysKill
    rw [if_neg (by decide), h.procs, show [p].find? (fun t => (t.pid : Int) == 1) = some p by simp [h.pid]]
    simp only [h.addr]
    rfl
  rw [h.step_eq]
  simp only [call, hk]
  refine ⟨_, rfl, ⟨h.procs, h.addr, h.pid, ?_, ?_⟩, ?_, ?_⟩ <;> simp only [update_self]
  · exact h.state
  · exact h.pidOf

end

theorem deliver_usr1 {s : Tasks} (i cur : Nat) (hpend : (s.mem cur).sigPending = 1#32 <<< 10)
    (hh : (s.mem cur).sigHandler = update (fun _ => 0) 10 0x400800) :
    (s.deliver i cur (fun _ => 0) userFrame).2.map IsrFrame.rip = some 0x400800 := by
  have hd : ∃ p m f, deliverSignalsIsr (s.signals cur) (fun _ => 0) userFrame = .redirected p m f ∧ f.rip = 0x400800 := by
    have hs : s.signals cur = ⟨1#32 <<< 10, fun n => if h : n < 32 then update (fun _ => 0) 10 0x400800 (⟨n, h⟩ : Fin 32) else 0⟩ := by
      unfold signals
      rw [hpend, hh]
    rw [hs]
    exact ⟨_, _, _, rfl, rfl⟩
  obtain ⟨p, m, f, hd, hrip⟩ := hd
  unfold deliver
  rw [hd]
  exact congrArg some hrip

theorem bareTasks_single (x : UInt8) : ∃ f, (bareTasks x).k.procs = [f] ∧ f.addr = 0x1000 ∧ f.pid = 1 ∧
    (bareTasks x).mem 0x1000 = bareTask f ∧ Shape (bareTasks x).k.vm (bareTasks x).k.roots ∧ Room (bareTasks x).k.vm.pmm 3570 := by
  obtain ⟨F, -, hsh, hroom⟩ := boot_sharing
  have hf : ∃ f, (boot startVm bareImage 0x1000).procs = [f] ∧ f.addr = 0x1000 ∧ f.pid = 1 := ⟨_, rfl, rfl, rfl⟩
  obtain ⟨f, hp, ha, hpid⟩ := hf
  refine ⟨f, hp, ha, hpid, ?_, hsh.shape, hroom⟩
  unfold bareTasks
  simp only [hp]
  rfl

theorem bareTasks_start (x : UInt8) : ∃ f, Single (bareTasks x) f ∧ ((bareTasks x).mem 0x1000).sigHandler = (fun _ => 0) ∧
    ((bareTasks x).mem 0x1000).sigPending = 0 := by
  obtain ⟨f, hp, ha, hpid, hmem, -, -⟩ := bareTasks_single x
  refine ⟨f, ⟨hp, ha, hpid, ?_, ?_⟩, ?_, ?_⟩ <;> rw [hmem]
  · exact (by decide : ProcState.ready ≠ .zombie)
  · exact hpid
  · rfl
  · rfl

/-- **The handler of the old image is run in the new one.** -/
theorem exec_keeps_handler : (run step (bareTasks 0) keepRun).2 =
      [some (.signal 0x1000 10 0x400800), some (.exec 0x1000), none, some (.jump 0x1000 0x400800)] ∧
    ¬ Installed (lines (fun _ => []) [some (.signal 0x1000 10 0x400800), some (.exec 0x1000), none] 0x1000) 10 0x400800 := by
  constructor
  · obtain ⟨-, -, -, -, -, hshape, hroom⟩ := bareTasks_single 0
    obtain ⟨f, h0, hh0, hq0⟩ := bareTasks_start 0
    obtain ⟨s1, e1, h1, hk1, hh1, hq1⟩ := h0.signal 0x400800
    obtain ⟨s2, p, e2, h2, hh2, hq2⟩ := h1.exec (by rw [hk1]; exact hshape) (m := 3565) (by rw [hk1]; exact hroom)
    obtain ⟨s3, e3, h3, hh3, hq3⟩ := h2.kill
    have hrip := deliver_usr1 (s := s3) 0 0x1000 (by rw [hq3, hq2, hq1, hq0]; rfl) (by rw [hh3, hh2, hh1, hh0])
    have e4 : (s3.step (0x1000, .deliver (fun _ => 0) userFrame)).2 = some (.jump 0x1000 0x400800) := by
      rw [h3.step_eq]
      simp only [call]
      obtain ⟨f', hf', hr⟩ := Option.map_eq_some_iff.1 hrip
      rw [hf', Option.map_some, hr]
    unfold keepRun
    rw [run_cons, e1, run_cons, e2, run_cons, e3, run_cons, e4]
    rfl
  · rintro ⟨p, l1, l2, heq, hno⟩
    have hl : [Note.signal 0x1000 10 0x400800, Note.exec 0x1000] = l1 ++ Note.signal p (10 : Fin 32).val 0x400800 :: l2 := heq
    match l1, hl with
    | [], hl =>
      simp only [nil_append, cons.injEq] at hl
      exact hno 0x1000 (by rw [← hl.2]; exact mem_singleton.2 rfl)
    | [_], hl =>
      simp only [cons_append, nil_append, cons.injEq] at hl
      exact absurd hl.2.1 (by simp)
    | _ :: _ :: l1, hl =>
      have hlen := congrArg length hl
      simp at hlen

/-- Installing a handler keeps the table to the image. -/
theorem handlers_of_image_signal : (run step (bareTasks 0) [(0x1000, .signal 10 0x400800)]).2 = [some (.signal 0x1000 10 0x400800)] ∧
    OwnHandlers (run step (bareTasks 0) [(0x1000, .signal 10 0x400800)]).1
      (lines (fun _ => []) (run step (bareTasks 0) [(0x1000, .signal 10 0x400800)]).2) := by
  obtain ⟨f, h0, hh0, -⟩ := bareTasks_start 0
  obtain ⟨s1, e1, -⟩ := h0.signal 0x400800
  refine ⟨by rw [run_cons, e1]; rfl, (handlers_of_image (bareTasks 0) (fun a ha sig => ?_) _ (splits_cons.2 ⟨?_, splits_nil⟩)).1⟩
  · have ha' : a = 0x1000 := by
      unfold live at ha
      rw [h0.procs] at ha
      rw [mem_singleton.1 ha]
      exact h0.addr
    rw [ha', hh0]
  · trivial

end Tasks
end Noxis
