import Noxis.StackCode
import Noxis.Signal
import Noxis.Run
/-!
# Context — the registers of a thread (`syscall_entry.asm`, `kthread_switch.asm`, `sys_fork`)

Three layouts have to agree: the order in which `syscall_entry` pushes the user's registers and pops them again, the fields of
`syscall_frame_t`, and the stack `sys_fork` builds by hand for `kthread_switch` to switch to.  The assembly is kept as text, a
list of instructions with a step function.

Around it stands the system of threads: each has a kernel stack of its own and, in its `process_t`, the stack pointer
`kctx_rsp` it was switched out with.  A thread that is not running is asleep over the words from there to the top of its
stack (`Asleep`); whatever the other threads do, as long as they keep off that stretch, it resumes with what it had.
-/
namespace Noxis

open List Function
namespace Context

open StackCode

/-! ## The processor and the assembly -/

structure Ring0 extends Core Reg where
  rip : Nat
  rflags : Nat
  gUserRsp : Nat
  gCurKstack : Nat

inductive Instr where
  | push (r : Reg)
  | pop (r : Reg)
  /-- `mov [rel g_user_rsp], rsp` -/
  | saveUserRsp
  /-- `mov rsp, [rel g_cur_kstack]` -/
  | loadKstack
  /-- `push qword [rel g_user_rsp]` -/
  | pushUserRsp
  /-- `mov rdi, rsp` -/
  | movRdiRsp
  /-- `mov [rdi], rsp` -/
  | storeRsp
  /-- `mov rsp, rsi` -/
  | movRspRsi
  /-- `mov rsp, [rsp]` -/
  | loadRsp
  | ret
  | sysret
  deriving DecidableEq, Repr

/-- The flags `SYSRET` takes from R11: not RF, VM and the reserved ones, and bit 1 is set. -/
def sysretFlags (r11 : Nat) : Nat := (r11 &&& 0x3C7FD7) ||| 2

def Ring0.exec (c : Ring0) : Instr → Ring0
  | .push r => { c with toCore := c.push r }
  | .pop r => { c with toCore := c.pop r }
  | .saveUserRsp => { c with gUserRsp := c.rsp }
  | .loadKstack => { c with rsp := c.gCurKstack }
  | .pushUserRsp => { c with toCore := c.pushVal c.gUserRsp }
  | .movRdiRsp => { c with reg := update c.reg .rdi c.rsp }
  | .storeRsp => { c with mem := update c.mem (c.reg .rdi) c.rsp }
  | .movRspRsi => { c with rsp := c.reg .rsi }
  | .loadRsp => { c with rsp := c.mem c.rsp }
  | .ret => { c with rip := c.mem c.rsp, rsp := up c.rsp }
  | .sysret => { c with rip := c.reg .rcx, rflags := sysretFlags (c.reg .r11) }

def Ring0.execAll (c : Ring0) (is : List Instr) : Ring0 := is.foldl Ring0.exec c

def syscallEntry : List Instr :=
  [.saveUserRsp, .loadKstack, .pushUserRsp, .push .r11, .push .rcx, .push .r15, .push .r14, .push .r13, .push .r12, .push .rbp,
    .push .rbx, .push .r9, .push .r8, .push .r10, .push .rdx, .push .rsi, .push .rdi, .push .rax, .movRdiRsp]

/-- `syscall_entry.return`, where `fork_ret_trampoline` jumps to. -/
def syscallReturn : List Instr :=
  [.pop .rax, .pop .rdi, .pop .rsi, .pop .rdx, .pop .r10, .pop .r8, .pop .r9, .pop .rbx, .pop .rbp, .pop .r12, .pop .r13,
    .pop .r14, .pop .r15, .pop .rcx, .pop .r11, .loadRsp, .sysret]

def kthreadSwitch : List Instr :=
  [.push .rbx, .push .rbp, .push .r12, .push .r13, .push .r14, .push .r15, .storeRsp, .movRspRsi, .pop .r15, .pop .r14, .pop .r13,
    .pop .r12, .pop .rbp, .pop .rbx, .ret]

theorem execAll_cons (c : Ring0) (i : Instr) (is : List Instr) : c.execAll (i :: is) = (c.exec i).execAll is := foldl_cons ..

theorem execAll_append (c : Ring0) (is js : List Instr) : c.execAll (is ++ js) = (c.execAll is).execAll js := foldl_append

theorem execAll_pushes : ∀ (rs : List Reg) (c : Ring0), c.execAll (rs.map .push) = { c with toCore := c.pushes rs }
  | [], _ => by rw [map_nil, Ring0.execAll, foldl_nil, Core.pushes, foldl_nil]
  | r :: rs, c => by rw [map_cons, execAll_cons, execAll_pushes rs, Core.pushes_cons, Ring0.exec]

theorem execAll_pops : ∀ (rs : List Reg) (c : Ring0), c.execAll (rs.map .pop) = { c with toCore := c.pops rs }
  | [], _ => by rw [map_nil, Ring0.execAll, foldl_nil, Core.pops, foldl_nil]
  | r :: rs, c => by rw [map_cons, execAll_cons, execAll_pops rs, Core.pops_cons, Ring0.exec]

/-! ## The system call frame -/

/-- A ring-3 state; its flags are such as `SYSRET` restores. -/
structure User where
  reg : Reg → Nat
  rip : Nat
  rsp : Nat
  rflags : Nat
  flagsOk : sysretFlags rflags = rflags

/-- `SYSCALL`: RIP and RFLAGS go to RCX and R11, `SFMASK` clears IF, RSP stays. -/
def Ring0.syscall (c : Ring0) (entry : Nat) (u : User) : Ring0 :=
  { c with
    reg := update (update u.reg .rcx u.rip) .r11 u.rflags
    rsp := u.rsp
    rip := entry
    rflags := u.rflags - (u.rflags &&& 0x200) }

/-- The registers of `u` but for RAX, RCX and R11. -/
structure Ring0.InUser (c : Ring0) (u : User) (rax : Nat) : Prop where
  rax : c.reg .rax = rax
  reg : ∀ r, r ≠ .rax → r ≠ .rcx → r ≠ .r11 → c.reg r = u.reg r
  rip : c.rip = u.rip
  rflags : c.rflags = u.rflags
  rsp : c.rsp = u.rsp

inductive Field where
  | rax | rdi | rsi | rdx | r10 | r8 | r9 | rbx | rbp | r12 | r13 | r14 | r15 | rip | rflags | ursp
  deriving DecidableEq, Repr

def frameFields : List Field :=
  [.rax, .rdi, .rsi, .rdx, .r10, .r8, .r9, .rbx, .rbp, .r12, .r13, .r14, .r15, .rip, .rflags, .ursp]

def Field.addr (x : Field) (f : Nat) : Nat := f + 8 * frameFields.idxOf x

@[irreducible] def frameSize : Nat := 8 * frameFields.length

def frameWords (u : User) (rax : Nat) : List Nat :=
  [rax, u.reg .rdi, u.reg .rsi, u.reg .rdx, u.reg .r10, u.reg .r8, u.reg .r9, u.reg .rbx, u.reg .rbp, u.reg .r12, u.reg .r13,
    u.reg .r14, u.reg .r15, u.rip, u.rflags, u.rsp]

def entryRegs : List Reg := [.r11, .rcx, .r15, .r14, .r13, .r12, .rbp, .rbx, .r9, .r8, .r10, .rdx, .rsi, .rdi, .rax]

def returnRegs : List Reg := [.rax, .rdi, .rsi, .rdx, .r10, .r8, .r9, .rbx, .rbp, .r12, .r13, .r14, .r15, .rcx, .r11]

theorem syscallEntry_eq : syscallEntry =
    [Instr.saveUserRsp, Instr.loadKstack, Instr.pushUserRsp] ++ (entryRegs.map Instr.push ++ [Instr.movRdiRsp]) := rfl

theorem syscallReturn_eq : syscallReturn = returnRegs.map Instr.pop ++ [Instr.loadRsp, Instr.sysret] := rfl

theorem entry_start (c : Ring0) (entry : Nat) (u : User) :
    ∃ d, (c.syscall entry u).execAll [.saveUserRsp, .loadKstack, .pushUserRsp] = d ∧ d.rsp = down c.gCurKstack ∧
      d.mem = update c.mem (down c.gCurKstack) u.rsp ∧ d.reg = update (update u.reg .rcx u.rip) .r11 u.rflags ∧
      d.gCurKstack = c.gCurKstack := ⟨_, rfl, rfl, rfl, rfl, rfl⟩

theorem execAll_movRdiRsp (c : Ring0) : c.execAll [.movRdiRsp] = { c with reg := update c.reg .rdi c.rsp } := rfl

theorem execAll_sysret (c : Ring0) : c.execAll [.loadRsp, .sysret] =
    ⟨⟨c.reg, c.mem c.rsp, c.mem⟩, c.reg .rcx, sysretFlags (c.reg .r11), c.gUserRsp, c.gCurKstack⟩ := rfl

/-- **The entry stub** leaves the frame of the user at the top of the kernel stack. -/
theorem syscallEntry_spec (c : Ring0) (entry : Nat) (u : User) (h1 : 128 ≤ c.gCurKstack) (h2 : c.gCurKstack < 2 ^ 64) :
    let r := (c.syscall entry u).execAll syscallEntry
    Words r.mem (c.gCurKstack - 128) (frameWords u (u.reg .rax)) ∧ r.rsp = c.gCurKstack - 128 ∧
    r.reg .rdi = c.gCurKstack - 128 ∧ r.gCurKstack = c.gCurKstack ∧
    ∀ x, x < c.gCurKstack - 128 ∨ c.gCurKstack ≤ x → r.mem x = c.mem x := by
  obtain ⟨d, hd, hsp, hmem, hreg, hk⟩ := entry_start c entry u
  rw [syscallEntry_eq, execAll_append, execAll_append, execAll_pushes, hd, execAll_movRdiRsp]
  rw [down_eq (by omega) h2] at hsp hmem
  have hlen : 8 * entryRegs.length = 120 := rfl
  obtain ⟨-, e2, e3, e4⟩ := Core.pushes_spec entryRegs d.toCore (by omega) (by omega)
  have hlow : d.rsp - 120 = c.gCurKstack - 128 := by omega
  rw [hlen, hlow] at e2 e3 e4
  generalize hf : c.gCurKstack - 128 = f at e2 e3 e4 ⊢
  generalize d.toCore.pushes entryRegs = q at e2 e3 e4 ⊢
  have hframe : frameWords u (u.reg .rax) = entryRegs.reverse.map d.reg ++ [u.rsp] := by rw [hreg]; rfl
  refine ⟨?_, e2, ?_, hk, fun x hx => ?_⟩
  · -- the user's RSP was pushed first
    have hlast : q.mem (f + 8 * (entryRegs.reverse.map d.reg).length) = u.rsp := by
      rw [length_map, length_reverse, hlen]
      have htop : f + 120 = c.gCurKstack - 8 := by omega
      rw [htop, e4 _ (by omega), hmem, update_self]
    rw [hframe, words_append]
    exact ⟨e3, hlast, trivial⟩
  · dsimp only
    rw [update_self, e2]
  · refine (e4 x (by omega)).trans ?_
    rw [hmem, update_of_ne (by omega)]

variable {c : Ring0} {u : User} {rax f top : Nat}

/-- **The return path** restores what the frame holds. -/
theorem syscallReturn_spec (hw : Words c.mem c.rsp (frameWords u rax)) (hlt : c.rsp + 128 < 2 ^ 64) :
    (c.execAll syscallReturn).InUser u rax := by
  have hframe : frameWords u rax = [rax, u.reg .rdi, u.reg .rsi, u.reg .rdx, u.reg .r10, u.reg .r8, u.reg .r9, u.reg .rbx,
    u.reg .rbp, u.reg .r12, u.reg .r13, u.reg .r14, u.reg .r15, u.rip, u.rflags] ++ [u.rsp] := rfl
  have hlen : 8 * returnRegs.length = 120 := rfl
  rw [hframe, words_append] at hw
  rw [syscallReturn_eq, execAll_append, execAll_pops, execAll_sysret]
  obtain ⟨e1, -, e3, e4⟩ := Core.pops_spec returnRegs _ c.toCore (by decide) rfl hw.1 (by omega)
  generalize c.toCore.pops returnRegs = q at e1 e3 e4 ⊢
  simp only [returnRegs, map_cons, map_nil, cons.injEq, and_true] at e1
  obtain ⟨r1, r2, r3, r4, r5, r6, r7, r8, r9, r10, r11, r12, r13, r14, r15⟩ := e1
  refine ⟨?_, fun r h1 h2 h3 => ?_, ?_, ?_, ?_⟩ <;> dsimp only
  · exact r1
  · cases r <;> first | assumption | contradiction
  · exact r14
  · rw [r15]
    exact u.flagsOk
  · rw [e3, e4]
    exact hw.2.1

theorem syscallReturn_mem (c : Ring0) : (c.execAll syscallReturn).mem = c.mem ∧ (c.execAll syscallReturn).gCurKstack = c.gCurKstack := by
  rw [syscallReturn_eq, execAll_append, execAll_pops, execAll_sysret]
  exact ⟨c.toCore.pops_mem returnRegs, rfl⟩

/-! ## `kthread_switch` -/

def calleeSaved : List Reg := [.rbx, .rbp, .r12, .r13, .r14, .r15]

/-- What the switch leaves on the stack of the thread it switches away from: the callee-saved registers, lowest the last one
pushed, and the return address. -/
def savedWords (c : Ring0) : List Nat := calleeSaved.reverse.map c.reg ++ [c.rip]

/-- The call `kthread_switch(&prev->kctx_rsp, next->kctx_rsp)`: two arguments, and `rip` as the return address. -/
def Ring0.called (c : Ring0) (prev next : Nat) : Ring0 :=
  { c with toCore := Core.pushVal ⟨update (update c.reg .rdi prev) .rsi (c.mem next), c.rsp, c.mem⟩ c.rip }

def leaveCode : List Instr := calleeSaved.map Instr.push ++ [Instr.storeRsp, Instr.movRspRsi]

def arriveCode : List Instr := calleeSaved.reverse.map Instr.pop ++ [Instr.ret]

theorem kthreadSwitch_eq : kthreadSwitch = leaveCode ++ arriveCode := rfl

def Ring0.switch (c : Ring0) (prev next : Nat) : Ring0 := (c.called prev next).execAll kthreadSwitch

/-- The first half of `kthread_switch`: the outgoing context goes to its stack, and its stack pointer to `kctx_rsp`. -/
def Ring0.leave (c : Ring0) (prev next : Nat) : Ring0 :=
  (c.called prev next).execAll leaveCode

theorem called_spec (c : Ring0) (prev next : Nat) :
    let r := c.called prev next
    r.reg = update (update c.reg .rdi prev) .rsi (c.mem next) ∧ r.rsp = down c.rsp ∧ r.mem = update c.mem (down c.rsp) c.rip ∧
    r.gCurKstack = c.gCurKstack := by
  rw [Ring0.called, Core.pushVal]
  exact ⟨rfl, rfl, rfl, rfl⟩

theorem execAll_swap (c : Ring0) : c.execAll [.storeRsp, .movRspRsi] =
    ⟨⟨c.reg, c.reg .rsi, update c.mem (c.reg .rdi) c.rsp⟩, c.rip, c.rflags, c.gUserRsp, c.gCurKstack⟩ := rfl

theorem leave_spec {prev next : Nat} (h56 : 56 ≤ c.rsp) (hlt : c.rsp < 2 ^ 64) (hprev : prev < c.rsp - 56 ∨ c.rsp ≤ prev) :
    let r := c.leave prev next
    r.rsp = c.mem next ∧ r.mem prev = c.rsp - 56 ∧ Words r.mem (c.rsp - 56) (savedWords c) ∧ r.gCurKstack = c.gCurKstack ∧
    ∀ x, x ≠ prev → (x < c.rsp - 56 ∨ c.rsp ≤ x) → r.mem x = c.mem x := by
  obtain ⟨hreg, hsp, hmem, hk⟩ := called_spec c prev next
  rw [Ring0.leave, leaveCode, execAll_append, execAll_pushes, execAll_swap]
  generalize c.called prev next = d at hreg hsp hmem hk ⊢
  rw [down_eq (by omega) hlt] at hsp hmem
  have hlen : 8 * calleeSaved.length = 48 := rfl
  obtain ⟨p1, p2, p3, p4⟩ := Core.pushes_spec calleeSaved d.toCore (by omega) (by omega)
  have hlow : d.rsp - 48 = c.rsp - 56 := by omega
  have hwords : calleeSaved.reverse.map d.reg = calleeSaved.reverse.map c.reg := by
    rw [hreg]
    rfl
  rw [hlen, hlow] at p2 p3 p4
  rw [hwords] at p3
  generalize hf : c.rsp - 56 = f at hprev p2 p3 p4 ⊢
  generalize d.toCore.pushes calleeSaved = q at p1 p2 p3 p4 ⊢
  have hprevReg : q.reg .rdi = prev := by rw [p1, hreg]; rfl
  have hnextReg : q.reg .rsi = c.mem next := by rw [p1, hreg]; rfl
  dsimp only
  rw [hprevReg, p2]
  refine ⟨hnextReg, update_self _ _ _, ?_, hk, fun x hx hx' => ?_⟩
  · -- the saved words end with the return address
    have hlast : f + 8 * (calleeSaved.reverse.map c.reg).length = c.rsp - 8 := by
      rw [length_map, length_reverse, hlen]
      omega
    rw [savedWords, words_append, hlast]
    refine ⟨p3.congr fun x h1 h2 => update_of_ne ?_ _ _, ?_, trivial⟩
    · rw [hlast] at h2
      omega
    · rw [update_of_ne (by omega), p4 _ (by omega), hmem, update_self]
  · rw [update_of_ne hx, p4 x (by omega), hmem, update_of_ne (by omega)]

theorem execAll_ret (c : Ring0) : c.execAll [.ret] =
    ⟨⟨c.reg, up c.rsp, c.mem⟩, c.mem c.rsp, c.rflags, c.gUserRsp, c.gCurKstack⟩ := rfl

theorem arrive_spec {vs : List Nat} {r : Nat} (hlen : vs.length = 6) (hw : Words c.mem c.rsp (vs ++ [r]))
    (hlt : c.rsp + 56 < 2 ^ 64) : savedWords (c.execAll arriveCode) = vs ++ [r] ∧ (c.execAll arriveCode).rsp = c.rsp + 56 := by
  have h48 : 8 * calleeSaved.reverse.length = 48 := rfl
  rw [words_append, hlen] at hw
  rw [arriveCode, execAll_append, execAll_pops, execAll_ret, savedWords]
  obtain ⟨e1, -, e3, e4⟩ := Core.pops_spec calleeSaved.reverse vs c.toCore (by decide) (by rw [hlen]; rfl) hw.1 (by omega)
  generalize c.toCore.pops calleeSaved.reverse = q at e1 e3 e4 ⊢
  rw [h48] at e3
  have hrip : q.mem q.rsp = r := by
    rw [e3, e4]
    exact hw.2.1
  dsimp only
  rw [e1, hrip, e3, up_eq (by omega)]
  exact ⟨rfl, rfl⟩

theorem switch_eq (c : Ring0) (prev next : Nat) : c.switch prev next = (c.leave prev next).execAll arriveCode := by
  rw [Ring0.leave, Ring0.switch, kthreadSwitch_eq, execAll_append]

theorem switch_mem {c : Ring0} {prev next : Nat} : (c.switch prev next).mem = (c.leave prev next).mem ∧
    (c.switch prev next).gCurKstack = (c.leave prev next).gCurKstack := by
  rw [switch_eq, arriveCode, execAll_append, execAll_pops, execAll_ret]
  exact ⟨(c.leave prev next).toCore.pops_mem calleeSaved.reverse, rfl⟩

/-! ## The stack `sys_fork` builds -/

/-- The child's kernel stack: the parent's frame at `f` copied to its top with `rax` 0, and below it a context whose return
address is `fork_ret_trampoline`.  The answer is the memory and the child's `kctx_rsp`. -/
def forkStack (m : Nat → Nat) (f kstackTop tramp : Nat) : (Nat → Nat) × Nat :=
  let cf := kstackTop - frameSize
  let m := copy m cf f frameFields.length
  let m := update m (Field.rax.addr cf) 0
  puts (m, cf) [tramp, 0, 0, 0, 0, 0, 0]

theorem frameSize_eq : frameSize = 128 := by
  unfold frameSize
  rfl

theorem Field.addr_eq (x : Field) (f : Nat) : x.addr f = f + 8 * frameFields.idxOf x := rfl

theorem Field.idx_lt (x : Field) : frameFields.idxOf x < 16 := by cases x <;> decide

variable {m : Nat → Nat}

theorem frame_setRax (h : Words m f (frameWords u rax)) (v : Nat) : Words (update m (Field.rax.addr f) v) f (frameWords u v) :=
  h.set 0 v (Nat.zero_lt_succ _)

theorem forkStack_puts (m : Nat → Nat) (f tramp : Nat) (htop : 184 ≤ top) :
    let r := forkStack m f top tramp
    r.2 = top - 184 ∧ Words r.1 (top - 184) (replicate 6 0 ++ [tramp]) ∧ ∀ x, x < top - 184 ∨
    top - 128 ≤ x → r.1 x = update (copy m (top - 128) f 16) (Field.rax.addr (top - 128)) 0 x := by
  have hbelow : 8 * [tramp, 0, 0, 0, 0, 0, 0].length = 56 := rfl
  have hlow : top - 128 - 56 = top - 184 := by omega
  obtain ⟨h1, h2, h3⟩ := puts_spec [tramp, 0, 0, 0, 0, 0, 0] (update (copy m (top - 128) f 16) (Field.rax.addr (top - 128)) 0, top - 128)
    (by rw [hbelow]; dsimp only; omega)
  rw [hbelow] at h1 h2 h3
  dsimp only at h1 h2 h3
  rw [hlow] at h1 h2 h3
  rw [forkStack, frameSize_eq]
  exact ⟨h1, h2, h3⟩

theorem forkStack_frame {tramp x : Nat} (htop : 184 ≤ top) (hx : x < top - 184 ∨ top ≤ x) :
    (forkStack m f top tramp).1 x = m x := by
  have hne : x ≠ Field.rax.addr (top - 128) := by
    have hidx : frameFields.idxOf Field.rax = 0 := rfl
    rw [Field.addr_eq]
    omega
  rw [(forkStack_puts m f tramp htop).2.2 x (by omega), update_of_ne hne, copy_frame (by omega)]

/-- **The child's stack**: a context that returns into the trampoline, and above it the parent's frame with `rax` 0. -/
theorem forkStack_words (tramp : Nat) (hf : Words m f (frameWords u rax)) (htop : 184 ≤ top) :
    Words (forkStack m f top tramp).1 (top - 184) ((replicate 6 0 ++ [tramp]) ++ frameWords u 0) := by
  obtain ⟨-, h2, h3⟩ := forkStack_puts m f tramp htop
  have hcopy : Words (copy m (top - 128) f 16) (top - 128) (frameWords u rax) := hf.copy
  have hlow : top - 184 + 8 * (replicate 6 0 ++ [tramp]).length = top - 128 := by
    rw [length_append, length_replicate, length_singleton]
    omega
  rw [words_append, hlow]
  exact ⟨h2, (frame_setRax hcopy 0).congr fun x hx _ => h3 x (.inr hx)⟩

end Context
end Noxis
