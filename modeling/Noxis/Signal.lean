import Noxis.Bytes
/-!
# Signal — delivering a signal to interrupted ring-3 code (`proc/signal.c`, `kernel/isr/isr_stubs.asm`)

A timer interrupt saves the registers of the running program in an `isr_frame_t` and restores them from it.  In between
`deliver_signals_isr` may redirect the frame to a handler of the program: it pushes the interrupted RIP on the user stack and
puts the signal number into RDI.  The handler's `ret` is all that undoes this.  `delivery_transparent_iff` says when the
interrupted code cannot tell.
-/
namespace Noxis

open List Option BitVec

/-! ## The interrupted program -/

inductive Reg where
  | rax | rbx | rcx | rdx | rsi | rdi | rbp | r8 | r9 | r10 | r11 | r12 | r13 | r14 | r15
  deriving DecidableEq, Repr

@[ext]
structure Ring3 where
  reg : Reg → Nat
  rip : Nat
  rsp : Nat
  mem : Nat → UInt8
  ripLt : rip < 2 ^ 64
  rspLt : rsp < 2 ^ 64

def addrSub (a n : Nat) : Nat := (a + 2 ^ 64 - n) % 2 ^ 64

theorem addrSub_lt (a n : Nat) : addrSub a n < 2 ^ 64 := Nat.mod_lt _ (by decide)

def store64 (m : Nat → UInt8) (a w : Nat) : Nat → UInt8 :=
  fun x => if x < 2 ^ 64 ∧ addrSub x a < 8 then UInt8.ofNat (w / 256 ^ addrSub x a) else m x

def load64 (m : Nat → UInt8) (a : Nat) : Nat := leRead (fun k => m ((a + k) % 2 ^ 64)) 0 8

theorem load64_lt (m : Nat → UInt8) (a : Nat) : load64 m a < 2 ^ 64 := by
  have h := leRead_lt (fun k => m ((a + k) % 2 ^ 64)) 8 0
  rwa [show 256 ^ 8 = 2 ^ 64 by decide] at h

theorem load64_store64 (m : Nat → UInt8) {a w : Nat} (ha : a < 2 ^ 64) (hw : w < 2 ^ 64) : load64 (store64 m a w) a = w := by
  have hbytes : load64 (store64 m a w) a = leRead (leWrite (fun _ => 0) 0 8 w) 0 8 := by
    apply leRead_congr
    intro k _ hk
    have hsub : addrSub ((a + k) % 2 ^ 64) a = k := by
      unfold addrSub
      omega
    unfold store64 leWrite
    rw [hsub, if_pos ⟨Nat.mod_lt _ (by decide), by omega⟩, if_pos (by omega), Nat.sub_zero]
  rw [hbytes, leRead_leWrite]
  exact Nat.mod_eq_of_lt hw

/-! ## The interrupt frame -/

/-- The general registers as `isr_common` pushes them. -/
def pushOrder : List Reg := [.rax, .rbx, .rcx, .rdx, .rsi, .rdi, .rbp, .r8, .r9, .r10, .r11, .r12, .r13, .r14, .r15]

def popOrder : List Reg := [.r15, .r14, .r13, .r12, .r11, .r10, .r9, .r8, .rbp, .rdi, .rsi, .rdx, .rcx, .rbx, .rax]

def fieldOrder : List Reg := [.r15, .r14, .r13, .r12, .r11, .r10, .r9, .r8, .rbp, .rdi, .rsi, .rdx, .rcx, .rbx, .rax]

/-- `isr_frame_t`: the pushed words, the last one first, and what the CPU pushed. -/
structure IsrFrame where
  words : List Nat
  rip : Nat
  cs : Nat
  rsp : Nat

def isrSave (u : Ring3) : IsrFrame := ⟨pushOrder.foldl (fun ws r => u.reg r :: ws) [], u.rip, 0x23, u.rsp⟩

def IsrFrame.set (f : IsrFrame) (r : Reg) (x : Nat) : IsrFrame := { f with words := f.words.set (fieldOrder.idxOf r) x }

def isrRestore (f : IsrFrame) (r : Reg) : Nat := f.words.getD (popOrder.idxOf r) 0

theorem isrRestore_save (u : Ring3) (r : Reg) : isrRestore (isrSave u) r = u.reg r := by
  cases r <;> rfl

theorem isrRestore_set_rdi (u : Ring3) (x : Nat) (r : Reg) :
    isrRestore ((isrSave u).set .rdi x) r = if r = .rdi then x else u.reg r := by
  cases r <;> rfl

/-! ## Delivery -/

structure Signals where
  pending : BitVec 32
  handler : Nat → Nat

/-- What becomes of an interrupt: the frame goes back as it is, it has been redirected to a handler, or the process exits. -/
inductive Delivery where
  | back (p : Signals)
  | redirected (p : Signals) (m : Nat → UInt8) (f : IsrFrame)
  | exited (code : Nat)

def isFatal (sig : Nat) : Bool := sig == 9 || sig == 15 || sig == 2

/-- The loop of `deliver_signals_isr` over the signals still to be looked at. -/
def deliverLoop (m : Nat → UInt8) (f : IsrFrame) : List Nat → Signals → Delivery
  | [], p => .back p
  | sig :: sigs, p =>
    if p.pending.getLsbD sig = false then deliverLoop m f sigs p
    else
      let p := { p with pending := p.pending &&& ~~~ (1#32 <<< sig) }
      if p.handler sig ≠ 0 then
        let f := { f with rsp := addrSub f.rsp 8 }
        .redirected p (store64 m f.rsp f.rip) ({ f with rip := p.handler sig }.set .rdi sig)
      else if isFatal sig then .exited (128 + sig)
      else deliverLoop m f sigs p

def deliverSignalsIsr (p : Signals) (m : Nat → UInt8) (f : IsrFrame) : Delivery :=
  if p.pending = 0 then .back p else deliverLoop m f (List.range' 1 31) p

/-- What `scheduler_tick` does for signals. -/
def tickSignals (p : Signals) (m : Nat → UInt8) (f : IsrFrame) : Delivery :=
  if f.cs % 4 = 3 ∧ p.pending ≠ 0 then deliverSignalsIsr p m f else .back p

def isrReturn (m : Nat → UInt8) (f : IsrFrame) : Ring3 where
  reg := isrRestore f
  rip := f.rip % 2 ^ 64
  rsp := f.rsp % 2 ^ 64
  mem := m
  ripLt := Nat.mod_lt _ (by decide)
  rspLt := Nat.mod_lt _ (by decide)

/-- A handler that preserves all registers and the memory from its return address up, and returns with `ret`. -/
structure Handler where
  run : Ring3 → Ring3
  regs : ∀ e r, (run e).reg r = e.reg r
  ret : ∀ e, (run e).rip = load64 e.mem e.rsp
  rsp : ∀ e, (run e).rsp = (e.rsp + 8) % 2 ^ 64
  above : ∀ e x, e.rsp ≤ x → (run e).mem x = e.mem x

/-- The state in which the interrupted program goes on, `none` when it has exited. -/
def resumed (p : Signals) (u : Ring3) (h : Handler) : Option Ring3 :=
  match tickSignals p u.mem (isrSave u) with
  | .back _ => some (isrReturn u.mem (isrSave u))
  | .redirected _ m f => some (h.run (isrReturn m f))
  | .exited _ => none

/-- `v` goes on where `u` was interrupted; 128 bytes below the stack pointer are the red zone. -/
structure Resumes (u v : Ring3) : Prop where
  rip : v.rip = u.rip
  reg : ∀ r, v.reg r = u.reg r
  rsp : v.rsp = u.rsp
  mem : ∀ x < 2 ^ 64, u.rsp - 128 ≤ x → v.mem x = u.mem x

/-! ## Which signal is delivered -/

def Signals.acted (p : Signals) : Option Nat :=
  (List.range' 1 31).find? fun sig => p.pending.getLsbD sig && (p.handler sig != 0 || isFatal sig)

def Signals.handled (p : Signals) : Option Nat := p.acted.filter fun sig => p.handler sig != 0

theorem getLsbD_clear (w : BitVec 32) {sig s : Nat} (hne : s ≠ sig) : (w &&& ~~~ (1#32 <<< sig)).getLsbD s = w.getLsbD s := by
  rw [getLsbD_and, getLsbD_not, getLsbD_shiftLeft, getLsbD_one]
  by_cases hs : s < 32
  · by_cases hlt : s < sig
    · simp [hs, hlt]
    · simp [hs, hlt, show s - sig ≠ 0 by omega]
  · simp [getLsbD_of_ge _ _ (Nat.le_of_not_lt hs)]

def redirect (f : IsrFrame) (sig h : Nat) : IsrFrame := ({ f with rsp := addrSub f.rsp 8, rip := h } : IsrFrame).set .rdi sig

/-- **The loop stops at the first pending signal that is not ignored.**  The bits it clears are those it has passed. -/
theorem deliverLoop_eq (m : Nat → UInt8) (f : IsrFrame) (q : Signals) : ∀ (sigs : List Nat) (p : Signals), sigs.Nodup →
    p.handler = q.handler → (∀ s ∈ sigs, p.pending.getLsbD s = q.pending.getLsbD s) →
    match sigs.find? (fun sig => q.pending.getLsbD sig && (q.handler sig != 0 || isFatal sig)) with
    | none => ∃ p', deliverLoop m f sigs p = .back p'
    | some sig => if q.handler sig ≠ 0 then
        ∃ p', deliverLoop m f sigs p = .redirected p' (store64 m (addrSub f.rsp 8) f.rip) (redirect f sig (q.handler sig))
      else deliverLoop m f sigs p = .exited (128 + sig)
  | [], p, _, _, _ => ⟨p, rfl⟩
  | sig :: sigs, p, hnd, hh, hbits => by
    obtain ⟨hnot, hnd'⟩ := nodup_cons.1 hnd
    have hrest : ∀ s ∈ sigs, p.pending.getLsbD s = q.pending.getLsbD s := fun s hs => hbits s (mem_cons_of_mem _ hs)
    have hbit := hbits sig mem_cons_self
    unfold deliverLoop
    rw [find?_cons, hbit, hh]
    cases hp : q.pending.getLsbD sig with
    | false => exact deliverLoop_eq m f q sigs p hnd' hh hrest
    | true =>
      by_cases h0 : q.handler sig = 0
      · cases hf : isFatal sig with
        | true => simp [h0]
        | false =>
          have ih := deliverLoop_eq m f q sigs { p with pending := p.pending &&& ~~~ (1#32 <<< sig) } hnd' hh (fun s hs => by
            rw [← hrest s hs]
            exact getLsbD_clear _ (by rintro rfl; exact hnot hs))
          simpa [h0, hf, hh] using ih
      · have hb : (q.handler sig != 0) = true := by simpa using h0
        simp only [h0, hb, ne_eq, not_false_eq_true, Bool.true_and, Bool.true_or, if_true, Bool.true_eq_false, if_false]
        exact ⟨_, rfl⟩

theorem deliverSignalsIsr_redirected {p p' : Signals} {m m' : Nat → UInt8} {f f' : IsrFrame}
    (h : deliverSignalsIsr p m f = .redirected p' m' f') : ∃ sig, p.handler sig ≠ 0 ∧ f'.rip = p.handler sig := by
  unfold deliverSignalsIsr at h
  split at h
  · cases h
  have hl := deliverLoop_eq m f p (range' 1 31) p nodup_range' rfl (fun _ _ => rfl)
  split at hl
  · obtain ⟨q, hq⟩ := hl
    rw [hq] at h
    cases h
  next sig _ =>
  split at hl
  · next hsig =>
    obtain ⟨q, hq⟩ := hl
    rw [hq] at h
    simp only [Delivery.redirected.injEq] at h
    exact ⟨sig, hsig, by rw [← h.2.2]; rfl⟩
  · rw [hl] at h
    cases h

def entered (u : Ring3) (sig h : Nat) : Ring3 where
  reg := fun r => if r = .rdi then sig else u.reg r
  rip := h % 2 ^ 64
  rsp := addrSub u.rsp 8
  mem := store64 u.mem (addrSub u.rsp 8) u.rip
  ripLt := Nat.mod_lt _ (by decide)
  rspLt := addrSub_lt _ _

theorem isrReturn_save (u : Ring3) : isrReturn u.mem (isrSave u) = u := by
  refine Ring3.ext ?_ ?_ ?_ rfl
  · funext r
    exact isrRestore_save u r
  · exact Nat.mod_eq_of_lt u.ripLt
  · exact Nat.mod_eq_of_lt u.rspLt

theorem isrReturn_redirect (u : Ring3) (sig h : Nat) :
    isrReturn (store64 u.mem (addrSub u.rsp 8) u.rip) (redirect (isrSave u) sig h) = entered u sig h := by
  refine Ring3.ext ?_ ?_ ?_ rfl
  · funext r
    exact isrRestore_set_rdi u sig r
  · simp only [isrReturn, entered, redirect, IsrFrame.set]
  · simp only [isrReturn, entered, redirect, IsrFrame.set]
    exact Nat.mod_eq_of_lt (addrSub_lt _ _)

/-- **What a timer interrupt leads to**: the program goes on, goes on after a handler has returned, or exits. -/
theorem resumed_eq (p : Signals) (u : Ring3) (h : Handler) : resumed p u h = match p.acted with
    | none => some u
    | some sig => if p.handler sig ≠ 0 then some (h.run (entered u sig (p.handler sig))) else none := by
  unfold resumed tickSignals deliverSignalsIsr
  by_cases h0 : p.pending = 0
  · have hn : p.acted = none := by
      unfold Signals.acted
      rw [find?_eq_none]
      intro sig _
      simp [h0]
    rw [if_neg (fun hc => hc.2 h0), hn, isrReturn_save]
  · rw [if_pos ⟨show 0x23 % 4 = 3 by decide, h0⟩, if_neg h0]
    have hl := deliverLoop_eq u.mem (isrSave u) p (range' 1 31) p nodup_range' rfl (fun _ _ => rfl)
    unfold Signals.acted
    cases hf : (range' 1 31).find? (fun sig => p.pending.getLsbD sig && (p.handler sig != 0 || isFatal sig)) with
    | none =>
      rw [hf] at hl
      obtain ⟨p', hp'⟩ := hl
      rw [hp', isrReturn_save]
    | some sig =>
      rw [hf] at hl
      by_cases hz : p.handler sig = 0
      · simp only [hz, ne_eq, not_true_eq_false, if_false] at hl ⊢
        rw [hl]
      · simp only [hz, ne_eq, not_false_eq_true, if_true] at hl ⊢
        obtain ⟨p', hp'⟩ := hl
        rw [hp']
        exact congrArg (fun e => some (h.run e)) (isrReturn_redirect u sig (p.handler sig))

/-- What it takes for the handler of `sig` to leave no trace: RDI held the signal number, the eight bytes below the stack
pointer held RIP, and the handler itself leaves the rest of the red zone as it was. -/
structure Untouched (u : Ring3) (h : Handler) (sig entry : Nat) : Prop where
  rdi : u.reg .rdi = sig
  slot : ∀ x < 2 ^ 64, addrSub u.rsp 8 ≤ x → store64 u.mem (addrSub u.rsp 8) u.rip x = u.mem x
  zone : ∀ x < addrSub u.rsp 8, u.rsp - 128 ≤ x → (h.run (entered u sig entry)).mem x = u.mem x

theorem run_entered (u : Ring3) (h : Handler) (sig entry : Nat) :
    (h.run (entered u sig entry)).rip = u.rip ∧ (h.run (entered u sig entry)).rsp = u.rsp := by
  have hrsp := u.rspLt
  refine ⟨?_, ?_⟩
  · rw [h.ret]
    exact load64_store64 _ (addrSub_lt _ _) u.ripLt
  · rw [h.rsp]
    show (addrSub u.rsp 8 + 8) % 2 ^ 64 = u.rsp
    unfold addrSub
    omega

theorem resumes_iff (u : Ring3) (h : Handler) (sig entry : Nat) :
    Resumes u (h.run (entered u sig entry)) ↔ Untouched u h sig entry := by
  have hrsp := u.rspLt
  have habove : ∀ x, addrSub u.rsp 8 ≤ x →
      (h.run (entered u sig entry)).mem x = store64 u.mem (addrSub u.rsp 8) u.rip x :=
    fun x hx => h.above (entered u sig entry) x hx
  constructor
  · intro hr
    refine ⟨?_, fun x hx hge => ?_, fun x hx hge => ?_⟩
    · rw [← hr.reg .rdi, h.regs]
      rfl
    · rw [← habove x hge]
      refine hr.mem x hx ?_
      unfold addrSub at hge
      omega
    · exact hr.mem x (hx.trans (addrSub_lt _ _)) hge
  · intro hu
    obtain ⟨hrip, hsp⟩ := run_entered u h sig entry
    refine ⟨hrip, fun r => ?_, hsp, fun x hx hge => ?_⟩
    · rw [h.regs]
      show (if r = .rdi then sig else u.reg r) = u.reg r
      split
      · next hr => rw [hr, hu.rdi]
      · rfl
    · by_cases hlt : x < addrSub u.rsp 8
      · exact hu.zone x hlt hge
      · rw [habove x (by omega)]
        exact hu.slot x hx (by omega)

/-- **When delivery is transparent.**  After a timer interrupt the program goes on as if nothing had happened exactly when no
handler is run, or the handler that is run leaves no trace (`Untouched`). -/
theorem delivery_transparent_iff (p : Signals) (u : Ring3) (h : Handler) :
    (∀ v, resumed p u h = some v → Resumes u v) ↔ ∀ sig, p.handled = some sig → Untouched u h sig (p.handler sig) := by
  unfold Signals.handled
  rw [resumed_eq]
  cases hact : p.acted with
  | none =>
    refine ⟨fun _ sig hs => (by cases hs), fun _ v hv => ?_⟩
    obtain rfl := some.inj hv
    exact ⟨rfl, fun _ => rfl, rfl, fun _ _ _ => rfl⟩
  | some sig =>
    by_cases h0 : p.handler sig = 0
    · simp [h0]
    · simp only [h0, ne_eq, not_false_eq_true, if_true, some.injEq, forall_eq', Option.filter, bne_iff_ne]
      exact resumes_iff u h sig (p.handler sig)

/-! ## An interrupted program that can tell -/

def retInstr (e : Ring3) : Ring3 where
  reg := e.reg
  rip := load64 e.mem e.rsp
  rsp := (e.rsp + 8) % 2 ^ 64
  mem := e.mem
  ripLt := load64_lt _ _
  rspLt := Nat.mod_lt _ (by decide)

def bareRet : Handler := ⟨retInstr, fun _ _ => rfl, fun _ => rfl, fun _ => rfl, fun _ _ _ => rfl⟩

def quietProgram : Ring3 where
  reg _ := 0
  rip := 0x401000
  rsp := 0x7FF000
  mem _ := 0
  ripLt := by decide
  rspLt := by decide

def usr1Pending : Signals := ⟨1#32 <<< 10, fun sig => if sig = 10 then 0x402000 else 0⟩

/-- Even a handler that does nothing leaves 10 in RDI and the return address in the red zone. -/
theorem delivery_clobbers : ∃ v, resumed usr1Pending quietProgram bareRet = some v ∧ v.rip = quietProgram.rip ∧
    v.rsp = quietProgram.rsp ∧ quietProgram.reg .rdi = 0 ∧ v.reg .rdi = 10 ∧
    quietProgram.mem (quietProgram.rsp - 7) = 0 ∧ v.mem (quietProgram.rsp - 7) = 0x10 ∧ ¬ Resumes quietProgram v := by
  refine ⟨bareRet.run (entered quietProgram 10 0x402000), ?_, ?_, ?_, rfl, rfl, rfl, ?_, ?_⟩
  · have hact : usr1Pending.acted = some 10 := by decide
    rw [resumed_eq, hact]
    rfl
  · exact (run_entered _ _ _ _).1
  · exact (run_entered _ _ _ _).2
  · decide
  · exact fun hr => absurd (hr.reg .rdi) (by decide)

end Noxis
