import Noxis.Context
/-!
# Threads — what a thread finds when it runs again

Each thread has a kernel stack of its own and, in its `process_t`, the stack pointer it was switched out with.  A step of the
system is a stretch of code of the running thread, an entry or return of a system call, `sys_fork`'s stack building, or
`scheduler_yield` to another thread.  The code of a thread may do anything to the registers and the memory except touch what
another thread sleeps on: its `kctx_rsp` and its stack from there up.

A thread asleep over some words keeps them in every run that does not wake it (`Asleep.run`).  With `leave_spec` and
`arrive_spec` this is all: what was pushed is popped, however the threads interleave.
-/
namespace Noxis

open List Option Function
namespace Context

open StackCode

/-! ## The system -/

/-- A thread: the address of its `kctx_rsp`, its kernel stack, and its `kstack_top`, which is 0 for the idle thread. -/
structure Thread where
  ctx : Nat
  base : Nat
  top : Nat
  kstackTop : Nat
  topLt : top < 2 ^ 64
  room : base + 184 ≤ top
  ctxOff : ctx < base ∨ top ≤ ctx
  kstack : kstackTop = 0 ∨ kstackTop = top
  deriving DecidableEq

def Thread.Off (t : Thread) (x : Nat) : Prop := x ≠ t.ctx ∧ (x < t.base ∨ t.top ≤ x)

structure Thread.Apart (t u : Thread) : Prop where
  stack : t.top ≤ u.base ∨ u.top ≤ t.base
  ctx : t.Off u.ctx
  ctx' : u.Off t.ctx

variable {t : Thread}

theorem Thread.Apart.symm {u : Thread} (h : t.Apart u) : u.Apart t := ⟨h.stack.symm, h.ctx', h.ctx⟩

structure Sys where
  cpu : Ring0
  cur : Thread
  threads : List Thread

def Sys.frame (s : Sys) : Nat := s.cur.top - frameSize

/-- The loop of `deliver_signals` over the signals still to be looked at, on the frame at `f`; `none` is `sys_exit`. -/
def deliverFrame (m : Nat → Nat) (f : Nat) : List Nat → Signals → Option (Nat → Nat)
  | [], _ => some m
  | sig :: sigs, p =>
    if p.pending.getLsbD sig = false then deliverFrame m f sigs p
    else
      let p := { p with pending := p.pending &&& ~~~ (1#32 <<< sig) }
      if p.handler sig ≠ 0 then
        let ursp := down (m (Field.ursp.addr f))
        let m := update m (Field.ursp.addr f) ursp
        let m := update m ursp (m (Field.rip.addr f))
        let m := update m (Field.rip.addr f) (p.handler sig)
        some (update m (Field.rdi.addr f) sig)
      else if isFatal sig then none
      else deliverFrame m f sigs p

def deliverSignals (p : Signals) (m : Nat → Nat) (f : Nat) : Option (Nat → Nat) :=
  if p.pending = 0 then some m else deliverFrame m f (List.range' 1 31) p

/-- No signal is pending that has a handler or is fatal. -/
def quiet (p : Signals) : Prop := ∀ sig ∈ List.range' 1 31, p.pending.getLsbD sig = true → p.handler sig = 0 ∧ isFatal sig = false

inductive Event where
  /-- Any code of the running thread, in ring 0 or 3. -/
  | code (c : Ring0)
  /-- Kernel code inside a system call that leaves the frame alone. -/
  | work (c : Ring0)
  /-- `SYSCALL` and the entry stub. -/
  | syscall (u : User)
  /-- `f->rax = v;` -/
  | setRax (v : Nat)
  /-- `sys_fork` builds the stack of its child. -/
  | fork (t : Thread)
  | deliver (p : Signals)
  /-- The return path of the stub. -/
  | sysret
  /-- `scheduler_yield` to `t`. -/
  | switch (t : Thread)
  /-- `scheduler_remove` of `t`. -/
  | reap (t : Thread)

variable (entry tramp : Nat)

def Sys.step (s : Sys) : Event → Sys × Unit
  | .code c => ({ s with cpu := c }, ())
  | .work c => ({ s with cpu := c }, ())
  | .syscall u => ({ s with cpu := (s.cpu.syscall entry u).execAll syscallEntry }, ())
  | .setRax v => ({ s with cpu := { s.cpu with mem := update s.cpu.mem (Field.rax.addr s.frame) v } }, ())
  | .fork t =>
    let r := forkStack s.cpu.mem s.frame t.top tramp
    ({ s with cpu := { s.cpu with mem := update r.1 t.ctx r.2 }, threads := t :: s.threads }, ())
  | .deliver p => ({ s with cpu := { s.cpu with mem := (deliverSignals p s.cpu.mem s.frame).getD s.cpu.mem } }, ())
  | .sysret => ({ s with cpu := s.cpu.execAll syscallReturn }, ())
  | .switch t =>
    let c := if t.kstackTop ≠ 0 then { s.cpu with gCurKstack := t.kstackTop } else s.cpu
    ({ s with cpu := c.switch s.cur.ctx t.ctx, cur := t }, ())
  | .reap t => ({ s with threads := s.threads.filter (· ≠ t) }, ())

structure Kept (t : Thread) (m m' : Nat → Nat) : Prop where
  ctx : m' t.ctx = m t.ctx
  stack : ∀ x, m t.ctx ≤ x → x < t.top → m' x = m x

/-- Code of the running thread keeps off what the others sleep on. -/
def Sys.Keeps (s : Sys) (c : Ring0) : Prop :=
  (∀ t ∈ s.threads, t ≠ s.cur → Kept t s.cpu.mem c.mem) ∧ c.gCurKstack = s.cpu.gCurKstack

def Sys.Legal (s : Sys) : Event → Prop
  | .code c => s.Keeps c
  | .work c => s.Keeps c ∧ ∀ x, s.frame ≤ x → x < s.cur.top → c.mem x = s.cpu.mem x
  | .syscall _ => s.cur.kstackTop ≠ 0
  | .setRax _ => True
  | .fork t => ∀ u ∈ s.threads, t.Apart u
  -- the store of the return address goes to the user's stack
  | .deliver p => (deliverSignals p s.cpu.mem s.frame).isSome ∧ ∀ t ∈ s.threads, t.Off (down (s.cpu.mem (Field.ursp.addr s.frame)))
  | .sysret => s.cpu.rsp = s.frame
  | .switch t => t ∈ s.threads ∧ t ≠ s.cur ∧ s.cur.base + 56 ≤ s.cpu.rsp ∧ s.cpu.rsp ≤ s.cur.top
  | .reap t => t ≠ s.cur

/-- The threads share no words, those that do not run have a context on their stacks, and system calls go to the stack of the
one that does. -/
structure Sys.Wf (s : Sys) : Prop where
  cur : s.cur ∈ s.threads
  apart : s.threads.Pairwise Thread.Apart
  saved : ∀ t ∈ s.threads, t ≠ s.cur → t.base ≤ s.cpu.mem t.ctx ∧ s.cpu.mem t.ctx + 56 ≤ t.top
  kstack : s.cur.kstackTop ≠ 0 → s.cpu.gCurKstack = s.cur.kstackTop

variable {entry tramp} {s : Sys}

theorem Sys.Wf.apart_cur (hs : s.Wf) (ht : t ∈ s.threads) (hne : t ≠ s.cur) : t.Apart s.cur :=
  have : Std.Symm Thread.Apart := ⟨fun _ _ h => h.symm⟩
  hs.apart.forall ht hs.cur hne

/-! ## What a step writes -/

theorem deliverFrame_off {m : Nat → Nat} {f x : Nat} (hx : x < f ∨ f + 128 ≤ x) (hu : x ≠ down (m (Field.ursp.addr f))) :
    ∀ (sigs : List Nat) (p : Signals), ((deliverFrame m f sigs p).getD m) x = m x
  | [], _ => rfl
  | sig :: sigs, p => by
    have hfield : ∀ y : Field, x ≠ y.addr f := fun y => by
      have := y.idx_lt
      rw [Field.addr_eq]
      omega
    rw [deliverFrame]
    split
    · exact deliverFrame_off hx hu sigs p
    dsimp only
    split
    · rw [getD_some, update_of_ne (hfield _), update_of_ne (hfield _), update_of_ne hu, update_of_ne (hfield _)]
    · split
      · rfl
      · exact deliverFrame_off hx hu sigs _

theorem deliverFrame_quiet {m : Nat → Nat} {f : Nat} : ∀ (sigs : List Nat) (p : Signals),
    (∀ sig ∈ sigs, p.pending.getLsbD sig = true → p.handler sig = 0 ∧ isFatal sig = false) → deliverFrame m f sigs p = some m
  | [], _, _ => rfl
  | sig :: sigs, p, h => by
    have hrest := fun x hx => h x (mem_cons_of_mem sig hx)
    rw [deliverFrame]
    split
    · exact deliverFrame_quiet sigs p hrest
    rename_i hp
    obtain ⟨h1, h2⟩ := h sig mem_cons_self (by simpa using hp)
    dsimp only
    rw [if_neg (by simpa using h1), h2, if_neg Bool.false_ne_true]
    refine deliverFrame_quiet sigs _ fun x hx hxp => hrest x hx ?_
    rw [BitVec.getLsbD_and, Bool.and_eq_true] at hxp
    exact hxp.1

variable {p : Signals}

theorem deliverSignals_quiet (hp : quiet p) (m : Nat → Nat) (f : Nat) : deliverSignals p m f = some m := by
  unfold deliverSignals
  split
  · rfl
  · exact deliverFrame_quiet _ _ hp

def Thread.Own (t : Thread) (x : Nat) : Prop := x = t.ctx ∨ t.base ≤ x ∧ x < t.top

variable {x sp rax : Nat}

theorem Thread.Apart.off {u : Thread} (h : t.Apart u) (hx : t.Own x) : u.Off x := by
  have h1 := h.stack
  have h2 := h.ctx
  have h3 := h.ctx'
  rcases hx with rfl | ⟨hx1, hx2⟩
  · exact h3
  · have hne : x ≠ u.ctx := fun he => by
      rcases h2.2 with hlt | hlt <;> omega
    exact ⟨hne, by omega⟩

variable {m m' : Nat → Nat}

theorem Kept.of_own (hlow : t.base ≤ m t.ctx) (h : ∀ x, t.Own x → m' x = m x) : Kept t m m' where
  ctx := h _ (.inl rfl)
  stack := fun x h1 h2 => h x (.inr ⟨by omega, h2⟩)

theorem Sys.frame_eq (s : Sys) : s.frame = s.cur.top - 128 := by rw [Sys.frame, frameSize_eq]

theorem deliver_off (hx : s.cur.Off x) (hu : x ≠ down (s.cpu.mem (Field.ursp.addr s.frame))) :
    ((deliverSignals p s.cpu.mem s.frame).getD s.cpu.mem) x = s.cpu.mem x := by
  have hroom := s.cur.room
  have hoff := hx.2
  unfold deliverSignals
  split
  · rfl
  · exact deliverFrame_off (by rw [Sys.frame_eq]; omega) hu _ _

def Sys.yielding (s : Sys) (t : Thread) : Ring0 := if t.kstackTop ≠ 0 then { s.cpu with gCurKstack := t.kstackTop } else s.cpu

theorem yielding_core (s : Sys) (t : Thread) : (s.yielding t).toCore = s.cpu.toCore ∧ (s.yielding t).rip = s.cpu.rip ∧
    (t.kstackTop ≠ 0 → (s.yielding t).gCurKstack = t.kstackTop) := by
  unfold Sys.yielding
  split
  · exact ⟨rfl, rfl, fun _ => rfl⟩
  · exact ⟨rfl, rfl, fun h => absurd h ‹_›⟩

theorem step_syscall (s : Sys) (u : User) :
    (s.step entry tramp (.syscall u)).1 = { s with cpu := (s.cpu.syscall entry u).execAll syscallEntry } := rfl

theorem step_setRax (s : Sys) (v : Nat) : (s.step entry tramp (.setRax v)).1 =
    { s with cpu := { s.cpu with mem := update s.cpu.mem (Field.rax.addr s.frame) v } } := rfl

theorem step_fork (s : Sys) (t : Thread) : (s.step entry tramp (.fork t)).1 = { s with
      cpu := { s.cpu with
        mem := update (forkStack s.cpu.mem s.frame t.top tramp).1 t.ctx (forkStack s.cpu.mem s.frame t.top tramp).2 }
      threads := t :: s.threads } := rfl

theorem step_sysret (s : Sys) : (s.step entry tramp .sysret).1 = { s with cpu := s.cpu.execAll syscallReturn } := rfl

theorem step_switch (s : Sys) (t : Thread) :
    (s.step entry tramp (.switch t)).1 = { s with cpu := (s.yielding t).switch s.cur.ctx t.ctx, cur := t } := rfl

theorem switch_leaves (hl : s.Legal (.switch t)) : let c := (s.yielding t).leave s.cur.ctx t.ctx
    c.rsp = s.cpu.mem t.ctx ∧ c.mem s.cur.ctx = s.cpu.rsp - 56 ∧ Words c.mem (s.cpu.rsp - 56) (savedWords s.cpu) ∧
    c.gCurKstack = (s.yielding t).gCurKstack ∧
    ∀ x, x ≠ s.cur.ctx → (x < s.cpu.rsp - 56 ∨ s.cpu.rsp ≤ x) → c.mem x = s.cpu.mem x := by
  obtain ⟨-, -, h1, h2⟩ := hl
  obtain ⟨hc, hrip, -⟩ := yielding_core s t
  have hlt := s.cur.topLt
  have hoff := s.cur.ctxOff
  generalize s.yielding t = c at hc hrip ⊢
  have hsaved : savedWords c = savedWords s.cpu := by rw [savedWords, savedWords, hc, hrip]
  have hspec := @leave_spec c s.cur.ctx t.ctx (by rw [hc]; omega) (by rw [hc]; omega) (by rw [hc]; omega)
  rw [hsaved, hc] at hspec
  exact hspec

variable {e : Event}

theorem step_mem_off (hs : s.Wf) (hl : s.Legal e) (hx : s.cur.Off x) (hcode : ∀ c, e ≠ .code c)
    (hwork : ∀ c, e ≠ .work c) (hfork : ∀ t, e = .fork t → t.Off x)
    (hdel : ∀ p, e = .deliver p → x ≠ down (s.cpu.mem (Field.ursp.addr s.frame))) :
    (s.step entry tramp e).1.cpu.mem x = s.cpu.mem x := by
  have hroom := s.cur.room
  have hoff := hx.2
  cases e with
  | code c => exact absurd rfl (hcode c)
  | work c => exact absurd rfl (hwork c)
  | syscall u =>
    have hk := hs.kstack hl
    have htop : s.cur.kstackTop = s.cur.top := s.cur.kstack.resolve_left hl
    have hlt := s.cur.topLt
    rw [step_syscall]
    exact (syscallEntry_spec s.cpu entry u (by omega) (by omega)).2.2.2.2 x (by omega)
  | setRax v =>
    have hne : x ≠ Field.rax.addr s.frame := by
      have hidx : frameFields.idxOf Field.rax = 0 := rfl
      rw [Field.addr_eq, Sys.frame_eq]
      omega
    rw [step_setRax]
    dsimp only
    rw [update_of_ne hne]
  | fork t =>
    have hxt := hfork t rfl
    have htr := t.room
    have hoff' := hxt.2
    rw [step_fork]
    dsimp only
    rw [update_of_ne hxt.1, forkStack_frame (by omega) (by omega)]
  | deliver p => exact deliver_off hx (hdel p rfl)
  | sysret => rw [step_sysret, (syscallReturn_mem s.cpu).1]
  | switch t =>
    rw [step_switch]
    dsimp only
    rw [(switch_mem).1]
    have h1 := hl.2.2
    exact (switch_leaves hl).2.2.2.2 x hx.1 (by omega)
  | reap t => rfl

variable (entry tramp) in
/-- **A step keeps what the other threads sleep on.** -/
theorem step_kept (hs : s.Wf) (hl : s.Legal e) (ht : t ∈ s.threads) (hne : t ≠ s.cur) :
    Kept t s.cpu.mem (s.step entry tramp e).1.cpu.mem := by
  by_cases hcode : ∃ c, e = .code c
  · obtain ⟨c, rfl⟩ := hcode
    exact hl.1 t ht hne
  by_cases hwork : ∃ c, e = .work c
  · obtain ⟨c, rfl⟩ := hwork
    exact hl.1.1 t ht hne
  refine Kept.of_own (hs.saved t ht hne).1 fun x hx => ?_
  refine step_mem_off hs hl ((hs.apart_cur ht hne).off hx) (fun c he => hcode ⟨c, he⟩) (fun c he => hwork ⟨c, he⟩) ?_ ?_
  · rintro u rfl
    exact (hl t ht).symm.off hx
  · rintro p rfl
    intro he
    have hoff := hl.2 t ht
    rw [← he] at hoff
    rcases hx with rfl | ⟨h1, h2⟩
    · exact hoff.1 rfl
    · have := hoff.2
      omega

/-! ## The invariant over a run -/

variable {c : Ring0}

theorem Sys.Wf.stay (hs : s.Wf) (hk : ∀ t ∈ s.threads, t ≠ s.cur → Kept t s.cpu.mem c.mem)
    (hg : c.gCurKstack = s.cpu.gCurKstack) : Sys.Wf { s with cpu := c } where
  cur := hs.cur
  apart := hs.apart
  saved := fun t ht hne => by
    have hsaved := hs.saved t ht hne
    dsimp only
    rw [(hk t ht hne).ctx]
    exact hsaved
  kstack := fun h => hg.trans (hs.kstack h)

theorem Sys.Wf.fork (hs : s.Wf) (hl : s.Legal (.fork t)) : (s.step entry tramp (.fork t)).1.Wf := by
  have htr := t.room
  have hfresh : ∀ u ∈ s.threads, t ≠ u := by
    rintro u hu rfl
    have := (hl t hu).stack
    omega
  have hsp : (forkStack s.cpu.mem s.frame t.top tramp).2 = t.top - 184 := (forkStack_puts _ _ _ (by omega)).1
  refine ⟨mem_cons_of_mem _ hs.cur, pairwise_cons.2 ⟨hl, hs.apart⟩, fun u hu hne => ?_, hs.kstack⟩
  rcases mem_cons.1 hu with rfl | hu
  · rw [step_fork]
    dsimp only
    rw [update_self, hsp]
    omega
  · rw [(step_kept _ _ hs hl hu hne).ctx]
    exact hs.saved u hu hne

theorem Sys.Wf.switch (hs : s.Wf) (hl : s.Legal (.switch t)) : (s.step entry tramp (.switch t)).1.Wf := by
  have hleft := switch_leaves hl
  have hkept := fun (u : Thread) hu hne => step_kept entry tramp hs hl (t := u) hu hne
  rw [step_switch] at hkept ⊢
  refine ⟨hl.1, hs.apart, fun u hu hne => ?_, fun h => ?_⟩
  · by_cases hcur : u = s.cur
    · subst hcur
      have hrsp := hl.2.2
      dsimp only
      rw [(switch_mem).1, hleft.2.1]
      omega
    · rw [(hkept u hu hcur).ctx]
      exact hs.saved u hu hcur
  · rw [(switch_mem).2, hleft.2.2.2.1]
    exact (yielding_core s t).2.2 h

variable (entry tramp) in
theorem Sys.Wf.step (hs : s.Wf) (hl : s.Legal e) : (s.step entry tramp e).1.Wf := by
  have hkept := fun (t : Thread) ht hne => step_kept entry tramp hs hl (t := t) ht hne
  cases e with
  | code c => exact hs.stay hkept hl.2
  | work c => exact hs.stay hkept hl.1.2
  | syscall u =>
    have htop : s.cur.kstackTop = s.cur.top := s.cur.kstack.resolve_left hl
    have hk := hs.kstack hl
    have hroom := s.cur.room
    have hlt := s.cur.topLt
    exact hs.stay hkept (syscallEntry_spec s.cpu entry u (by omega) (by omega)).2.2.2.1
  | setRax v => exact hs.stay hkept rfl
  | fork t => exact hs.fork hl
  | deliver p => exact hs.stay hkept rfl
  | sysret => exact hs.stay hkept (syscallReturn_mem s.cpu).2
  | switch t => exact hs.switch hl
  | reap t =>
    refine ⟨mem_filter.2 ⟨hs.cur, decide_eq_true (Ne.symm hl)⟩, hs.apart.filter _, fun u hu hne => ?_, hs.kstack⟩
    exact hs.saved u (mem_of_mem_filter hu) hne

structure Asleep (t : Thread) (sp : Nat) (ws : List Nat) (s : Sys) : Prop where
  mem : t ∈ s.threads
  ne : t ≠ s.cur
  ctx : s.cpu.mem t.ctx = sp
  fits : sp + 8 * ws.length ≤ t.top
  words : Words s.cpu.mem sp ws

variable {ws : List Nat}

theorem Asleep.kept {s s' : Sys} (h : Asleep t sp ws s) (hk : Kept t s.cpu.mem s'.cpu.mem)
    (hm : t ∈ s'.threads) (hne : t ≠ s'.cur) : Asleep t sp ws s' where
  mem := hm
  ne := hne
  ctx := hk.ctx.trans h.ctx
  fits := h.fits
  words := h.words.congr fun x h1 h2 => hk.stack x (by rw [h.ctx]; exact h1) (by have := h.fits; omega)

theorem Asleep.step (hs : s.Wf) (h : Asleep t sp ws s) (hl : s.Legal e)
    (hw : e ≠ .switch t) (hr : e ≠ .reap t) : Asleep t sp ws (s.step entry tramp e).1 := by
  refine h.kept (step_kept _ _ hs hl h.mem h.ne) ?_ ?_
  · cases e with
    | fork u => exact mem_cons_of_mem _ h.mem
    | reap u => exact mem_filter.2 ⟨h.mem, decide_eq_true fun he => hr (by rw [he])⟩
    | _ => exact h.mem
  · cases e with
    | switch u => exact fun he => hw (he ▸ rfl)
    | _ => exact h.ne

def LegalRun (entry tramp : Nat) (s : Sys) (es : List Event) : Prop :=
  ∀ pre e post, es = pre ++ e :: post → (run (Sys.step entry tramp) s pre).1.Legal e

theorem legalRun_cons {es : List Event} :
    LegalRun entry tramp s (e :: es) ↔ s.Legal e ∧ LegalRun entry tramp (s.step entry tramp e).1 es := by
  unfold LegalRun
  rw [splits_cons]
  rfl

theorem legalRun_nil : LegalRun entry tramp s [] := splits_nil

theorem LegalRun.append : ∀ {es es' : List Event} {s : Sys}, LegalRun entry tramp s (es ++ es') →
    LegalRun entry tramp s es ∧ LegalRun entry tramp (run (Sys.step entry tramp) s es).1 es'
  | [], _, _, h => ⟨legalRun_nil, h⟩
  | e :: es, es', s, h => by
    obtain ⟨h1, h2⟩ := legalRun_cons.1 h
    obtain ⟨h3, h4⟩ := LegalRun.append h2
    exact ⟨legalRun_cons.2 ⟨h1, h3⟩, h4⟩

def Undisturbed (t : Thread) (es : List Event) : Prop := ∀ e ∈ es, e ≠ .switch t ∧ e ≠ .reap t

/-- **A sleeping thread keeps its words**, whatever the others do. -/
theorem Asleep.stays {t : Thread} {sp : Nat} {ws : List Nat} : ∀ {es : List Event} {s : Sys}, s.Wf → Asleep t sp ws s →
    LegalRun entry tramp s es → Undisturbed t es →
    (run (Sys.step entry tramp) s es).1.Wf ∧ Asleep t sp ws (run (Sys.step entry tramp) s es).1
  | [], _, hs, h, _, _ => ⟨hs, h⟩
  | e :: es, s, hs, h, hl, hu => by
    obtain ⟨h1, h2⟩ := legalRun_cons.1 hl
    obtain ⟨hw, hr⟩ := hu e mem_cons_self
    have hrest := Asleep.stays (hs.step entry tramp h1) (h.step hs h1 hw hr) h2 fun e' he' => hu e' (mem_cons_of_mem _ he')
    exact hrest

variable (entry tramp) in
/-- **Waking up**: the registers, the return address and the words above. -/
theorem Asleep.wake {r : Nat} {vs : List Nat} (hs : s.Wf) (h : Asleep t sp ((vs ++ [r]) ++ ws) s)
    (hlen : vs.length = 6) (hl : s.Legal (.switch t)) :
    let w := s.step entry tramp (.switch t)
    savedWords w.1.cpu = vs ++ [r] ∧ w.1.cpu.rsp = sp + 56 ∧ Words w.1.cpu.mem (sp + 56) ws := by
  dsimp only
  have hleft := switch_leaves hl
  have hkept := step_kept entry tramp hs hl h.mem h.ne
  have hfits := h.fits
  have hlt := t.topLt
  have hwords : Words (s.step entry tramp (.switch t)).1.cpu.mem sp ((vs ++ [r]) ++ ws) :=
    h.words.congr fun x h1 h2 => hkept.stack x (by rw [h.ctx]; exact h1) (by omega)
  rw [length_append, length_append, hlen, length_singleton] at hfits
  rw [step_switch] at hwords ⊢
  dsimp only at hwords ⊢
  rw [(switch_mem).1, words_append, length_append, hlen, length_singleton] at hwords
  rw [(switch_mem).1, switch_eq]
  have hsp := hleft.1.trans h.ctx
  generalize (s.yielding t).leave s.cur.ctx t.ctx = d at hwords hsp ⊢
  obtain ⟨h1, h2⟩ := arrive_spec (c := d) hlen (by rw [hsp]; exact hwords.1) (by omega)
  exact ⟨h1, by rw [h2, hsp], hwords.2⟩

/-! ## `fork` and the switches -/

variable {u : User}

variable (entry tramp) in
theorem entered (hs : s.Wf) (hl : s.Legal (.syscall u)) :
    Words (s.step entry tramp (.syscall u)).1.cpu.mem s.frame (frameWords u (u.reg .rax)) := by
  have htop : s.cur.kstackTop = s.cur.top := s.cur.kstack.resolve_left hl
  have hk := hs.kstack hl
  have hroom := s.cur.room
  have hlt := s.cur.topLt
  have hspec := (syscallEntry_spec s.cpu entry u (by omega) (by omega)).1
  rw [hk, htop] at hspec
  rw [step_syscall, Sys.frame_eq]
  exact hspec

theorem frame_congr (h : Words m s.frame (frameWords u rax))
    (hm : ∀ x, s.frame ≤ x → x < s.cur.top → m' x = m x) : Words m' s.frame (frameWords u rax) := by
  have hroom := s.cur.room
  have hlen : 8 * (frameWords u rax).length = 128 := rfl
  refine h.congr fun x h1 h2 => hm x h1 ?_
  rw [hlen, Sys.frame_eq] at h2
  omega

variable (entry tramp) in
theorem fork_keeps_frame (hs : s.Wf) (hl : s.Legal (.fork t))
    (h : Words s.cpu.mem s.frame (frameWords u rax)) : Words (s.step entry tramp (.fork t)).1.cpu.mem s.frame (frameWords u rax) := by
  refine frame_congr h fun x h1 h2 => ?_
  have hroom := s.cur.room
  have htr := t.room
  rw [Sys.frame_eq] at h1
  have hoff := (hl s.cur hs.cur).symm.off (x := x) (.inr ⟨by omega, h2⟩)
  have hoff' := hoff.2
  rw [step_fork]
  dsimp only
  rw [update_of_ne hoff.1, forkStack_frame (by omega) (by omega)]

variable (entry tramp) in
/-- **The child sleeps over the parent's frame.** -/
theorem fork_asleep (hs : s.Wf) (hl : s.Legal (.fork t)) (h : Words s.cpu.mem s.frame (frameWords u rax)) :
    Asleep t (t.top - 184) ((replicate 6 0 ++ [tramp]) ++ frameWords u 0) (s.step entry tramp (.fork t)).1 := by
  have htr := t.room
  have hctx := t.ctxOff
  have hlen : 8 * ((replicate 6 0 ++ [tramp]) ++ frameWords u 0).length = 184 := rfl
  refine ⟨mem_cons_self, ?_, ?_, by omega, ?_⟩
  · intro he
    have hcur : t = s.cur := he
    have := (hl s.cur hs.cur).stack
    rw [← hcur] at this
    omega
  · rw [step_fork]
    dsimp only
    rw [update_self, (forkStack_puts _ _ _ (by omega)).1]
  · rw [step_fork]
    refine (forkStack_words tramp h (by omega)).congr fun x h1 h2 => update_of_ne ?_ _ _
    rw [hlen] at h2
    omega

variable (entry tramp) in
theorem switch_asleep (hs : s.Wf) (hl : s.Legal (.switch t)) :
    Asleep s.cur (s.cpu.rsp - 56) (savedWords s.cpu) (s.step entry tramp (.switch t)).1 := by
  have hleft := switch_leaves hl
  have hlen : 8 * (savedWords s.cpu).length = 56 := rfl
  obtain ⟨-, hne, h1, h2⟩ := hl
  rw [step_switch]
  refine ⟨hs.cur, hne.symm, ?_, by omega, ?_⟩
  · dsimp only
    rw [(switch_mem).1]
    exact hleft.2.1
  · dsimp only
    rw [(switch_mem).1]
    exact hleft.2.2.1

def forkCall (u : User) (c : Ring0) (child : Thread) : List Event := [.syscall u, .work c, .fork child]

def forkReturn (c : Ring0) (pid : Nat) (p : Signals) (c' : Ring0) : List Event := [.work c, .setRax pid, .deliver p, .work c', .sysret]

theorem forked (hs : s.Wf) (hl : LegalRun entry tramp s (forkCall u c t)) :
    let r := run (Sys.step entry tramp) s (forkCall u c t)
    r.1.Wf ∧ Asleep t (t.top - 184) ((replicate 6 0 ++ [tramp]) ++ frameWords u 0) r.1 ∧
    Words r.1.cpu.mem s.frame (frameWords u (u.reg .rax)) ∧ r.1.cur = s.cur := by
  obtain ⟨l1, hl⟩ := legalRun_cons.1 hl
  obtain ⟨l2, hl⟩ := legalRun_cons.1 hl
  obtain ⟨l3, -⟩ := legalRun_cons.1 hl
  have hs1 := hs.step entry tramp l1
  have hs2 := hs1.step entry tramp l2
  have hw1 := entered entry tramp hs l1
  have hw2 := frame_congr hw1 l2.2
  exact ⟨hs2.step entry tramp l3, fork_asleep entry tramp hs2 l3 hw2, fork_keeps_frame entry tramp hs2 l3 hw2, rfl⟩

theorem fork_returns {c' : Ring0} {pid : Nat} (hp : quiet p)
    (hw : Words s.cpu.mem s.frame (frameWords u rax)) (hl : LegalRun entry tramp s (forkReturn c pid p c')) :
    (run (Sys.step entry tramp) s (forkReturn c pid p c')).1.cpu.InUser u pid := by
  obtain ⟨l1, hl⟩ := legalRun_cons.1 hl
  obtain ⟨-, hl⟩ := legalRun_cons.1 hl
  obtain ⟨-, hl⟩ := legalRun_cons.1 hl
  obtain ⟨l4, hl⟩ := legalRun_cons.1 hl
  obtain ⟨l5, -⟩ := legalRun_cons.1 hl
  have hw1 := frame_congr hw l1.2
  have hw2 := frame_setRax hw1 pid
  set r := Field.rax.addr s.frame
  have hdel : (deliverSignals p (update c.mem r pid) s.frame).getD (update c.mem r pid) =
      update c.mem r pid := by rw [deliverSignals_quiet hp, getD_some]
  have hw3 : Words c'.mem s.frame (frameWords u pid) := frame_congr hw2 fun x h1 h2 => (l4.2 x h1 h2).trans (congrFun hdel x)
  have hsp : c'.rsp = s.frame := l5
  have hlt := s.cur.topLt
  exact @syscallReturn_spec c' u pid (by rw [hsp]; exact hw3) (by rw [hsp, Sys.frame_eq]; omega)

/-- **The fork child resumes in the parent's context, and every thread in its own.**  From any state of the system:
a child that `sys_fork` builds for a caller with the user registers `u`, whatever runs before it is switched to, returns into
the trampoline and reaches ring 3 with `u` and RAX 0; the caller, unless a signal is delivered to it, returns with `u` and the
child's pid in RAX; and a thread that is switched out and, after whatever the others did, switched to again finds the
callee-saved registers, the stack pointer and the return address it had. -/
theorem fork_context (entry tramp : Nat) (s : Sys) (hs : s.Wf) :
    (∀ (u : User) (c : Ring0) (child : Thread) (mid : List Event), Undisturbed child mid →
      LegalRun entry tramp s (forkCall u c child ++ (mid ++ [Event.switch child])) →
      (run (Sys.step entry tramp) s (forkCall u c child ++ (mid ++ [Event.switch child]))).1.cpu.rip = tramp ∧
      ((run (Sys.step entry tramp) s (forkCall u c child ++ (mid ++ [Event.switch child]))).1.cpu.execAll syscallReturn).InUser u 0) ∧
    (∀ (u : User) (c c' c'' : Ring0) (child : Thread) (pid : Nat) (p : Signals), quiet p →
      LegalRun entry tramp s (forkCall u c child ++ forkReturn c' pid p c'') →
      (run (Sys.step entry tramp) s (forkCall u c child ++ forkReturn c' pid p c'')).1.cpu.InUser u pid) ∧
    (∀ (t : Thread) (mid : List Event), Undisturbed s.cur mid → LegalRun entry tramp s (.switch t :: (mid ++ [Event.switch s.cur])) →
      (∀ r ∈ calleeSaved, (run (Sys.step entry tramp) s (.switch t :: (mid ++ [Event.switch s.cur]))).1.cpu.reg r = s.cpu.reg r) ∧
      (run (Sys.step entry tramp) s (.switch t :: (mid ++ [Event.switch s.cur]))).1.cpu.rsp = s.cpu.rsp ∧
      (run (Sys.step entry tramp) s (.switch t :: (mid ++ [Event.switch s.cur]))).1.cpu.rip = s.cpu.rip) := by
  refine ⟨fun u c child mid hu hl => ?_, fun u c c' c'' child pid p hp hl => ?_, fun t mid hu hl => ?_⟩
  · obtain ⟨l1, hl⟩ := hl.append
    obtain ⟨l2, hl⟩ := hl.append
    obtain ⟨h1, h2, -, -⟩ := forked hs l1
    obtain ⟨h3, h4⟩ := h2.stays h1 l2 hu
    rw [run_append, run_append]
    set w := Sys.step entry tramp
    generalize (run w (run w s (forkCall u c child)).1 mid).1 = s' at hl h3 h4 ⊢
    obtain ⟨w1, w2, w3⟩ := h4.wake entry tramp h3 (length_replicate ..) (legalRun_cons.1 hl).1
    have hlt := child.topLt
    have hrun : (run w s' [.switch child]).1 = (s'.step entry tramp (.switch child)).1 := rfl
    rw [hrun]
    refine ⟨?_, syscallReturn_spec (by rw [w2]; exact w3) (by omega)⟩
    exact (cons.inj (append_inj' w1 rfl).2).1
  · obtain ⟨l1, hl⟩ := hl.append
    obtain ⟨h1, -, h3, h4⟩ := forked hs l1
    have hframe : (run (Sys.step entry tramp) s (forkCall u c child)).1.frame = s.frame := by rw [Sys.frame_eq, h4, Sys.frame_eq]
    rw [run_append]
    rw [← hframe] at h3
    generalize (run (Sys.step entry tramp) s (forkCall u c child)).1 = s' at hl h1 h3 ⊢
    exact fork_returns hp h3 hl
  · obtain ⟨l1, hl⟩ := legalRun_cons.1 hl
    obtain ⟨l2, hl⟩ := hl.append
    have h56 := l1.2.2.1
    obtain ⟨h3, h4⟩ := (switch_asleep entry tramp hs l1).stays (hs.step entry tramp l1) l2 hu
    rw [run_cons]
    dsimp only
    rw [run_append]
    generalize (run (Sys.step entry tramp) (s.step entry tramp (.switch t)).1 mid).1 = s' at hl h3 h4 ⊢
    have h5 : Asleep s.cur (s.cpu.rsp - 56) ((calleeSaved.reverse.map s.cpu.reg ++ [s.cpu.rip]) ++ []) s' := by
      rw [append_nil]
      exact h4
    obtain ⟨w1, w2, -⟩ := h5.wake entry tramp h3 rfl (legalRun_cons.1 hl).1
    obtain ⟨hregs, hrip⟩ := append_inj' w1 rfl
    have hrun : (run (Sys.step entry tramp) s' [.switch s.cur]).1 = (s'.step entry tramp (.switch s.cur)).1 := rfl
    rw [hrun]
    refine ⟨fun r hr => ?_, by rw [w2]; omega, (cons.inj hrip).1⟩
    exact map_inj_left.1 hregs r (mem_reverse.2 hr)

/-! A system of one process that forks. -/

def forkingThread : Thread where
  ctx := 0
  base := 0x1000
  top := 0x2000
  kstackTop := 0x2000
  topLt := by decide
  room := by decide
  ctxOff := by decide
  kstack := by decide

def forkedThread : Thread where
  ctx := 8
  base := 0x3000
  top := 0x4000
  kstackTop := 0x4000
  topLt := by decide
  room := by decide
  ctxOff := by decide
  kstack := by decide

def forkingUser : User where
  reg := fun _ => 7
  rip := 0x400000
  rsp := 0x7FFF0000
  rflags := 0x202
  flagsOk := by decide

def forkingSys : Sys where
  cpu := ⟨⟨fun _ => 0, 0, fun _ => 0⟩, 0, 2, 0, 0x2000⟩
  cur := forkingThread
  threads := [forkingThread]

theorem forkingSys_wf : forkingSys.Wf where
  cur := mem_singleton.2 rfl
  apart := pairwise_singleton _ _
  saved := fun _ ht hne => absurd (mem_singleton.1 ht) hne
  kstack := fun _ => rfl

theorem forked_apart : forkedThread.Apart forkingThread where
  stack := by decide
  ctx := ⟨by decide, by decide⟩
  ctx' := ⟨by decide, by decide⟩

/-- The child is switched to and returns into the trampoline. -/
theorem fork_context_one : ((run (Sys.step 3 5) forkingSys (forkCall forkingUser
    ((forkingSys.cpu.syscall 3 forkingUser).execAll syscallEntry) forkedThread ++ ([] ++ [Event.switch forkedThread]))).1.cpu.execAll
      syscallReturn).InUser forkingUser 0 := by
  refine ((fork_context 3 5 forkingSys forkingSys_wf).1 forkingUser _ forkedThread [] (by simp [Undisturbed]) ?_).2
  have halone : ∀ (c c' : Ring0), c'.gCurKstack = c.gCurKstack → Sys.Keeps ⟨c, forkingThread, [forkingThread]⟩ c' := fun c c' h =>
    ⟨fun t ht hne => absurd (mem_singleton.1 ht) hne, h⟩
  have hrsp := (syscallEntry_spec forkingSys.cpu 3 forkingUser (by decide) (by decide)).2.1
  refine legalRun_cons.2 ⟨?_, legalRun_cons.2 ⟨⟨halone _ _ rfl, fun _ _ _ => rfl⟩, legalRun_cons.2 ⟨?_, legalRun_cons.2 ⟨?_, legalRun_nil⟩⟩⟩⟩
  · exact (by decide : (0x2000 : Nat) ≠ 0)
  · intro t ht
    rw [mem_singleton.1 ht]
    exact forked_apart
  · refine ⟨mem_cons_self, by decide, ?_, ?_⟩
    · exact le_of_le_of_eq (by decide : 0x1000 + 56 ≤ 0x2000 - 128) hrsp.symm
    · exact le_of_eq_of_le hrsp (by decide : 0x2000 - 128 ≤ 0x2000)

end Context
end Noxis
