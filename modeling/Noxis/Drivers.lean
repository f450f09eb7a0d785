import Noxis.Ring
import Noxis.Run
/-!
# Drivers — the timer, the keyboard and the disk controller (`drivers/`)

`sys_sleep` waits against `g_ticks`, a 32-bit counter; `_kbd_isr` keeps `g_shift` and `g_ctrl` by counting scancodes.  Both
are exact while a counter does not leave the range it is read in, and the theorems say when that is.
-/
namespace Noxis.Drivers

open List Nat Function

/-! ## `sys_sleep` -/

/-- `pit_uptime_ms`, `e` ticks after it was `t0`. -/
def ticks (t0 e : Nat) : Nat := (t0 + e) % 2 ^ 32

/-- The loop of `sys_sleep`, which reads the counter at the ticks `es` after the call; the answer is when it returns. -/
def sysSleep (t0 ms : Nat) : List Nat → Option Nat
  | [] => none
  | e :: es => if ticks t0 e < (t0 + ms) % 2 ^ 32 then sysSleep t0 ms es else some e

theorem sysSleep_some {t0 ms e : Nat} : ∀ {es : List Nat}, sysSleep t0 ms es = some e → (t0 + ms) % 2 ^ 32 ≤ ticks t0 e
  | _ :: _, h => by
    rw [sysSleep] at h
    split at h
    · exact sysSleep_some h
    · rename_i hlt
      cases h
      exact Nat.le_of_not_lt hlt

/-- **`sys_sleep` sleeps `ms` ticks exactly when the deadline does not wrap.** -/
theorem sleep_exact_iff (t0 ms : Nat) (ht : t0 < 2 ^ 32) (hms : ms < 2 ^ 32) :
    ((∀ es e, es.Pairwise (· ≤ ·) → sysSleep t0 ms es = some e → ms ≤ e) ∧ ¬ ticks t0 ms < (t0 + ms) % 2 ^ 32) ↔
      t0 + ms < 2 ^ 32 := by
  refine ⟨fun h => ?_, fun h => ⟨fun es e _ hs => ?_, lt_irrefl _⟩⟩
  · by_contra hw
    have hret : sysSleep t0 ms [0] = some 0 := if_neg (by unfold ticks; omega)
    have := h.1 [0] 0 (pairwise_singleton _ _) hret
    omega
  · have := sysSleep_some hs
    unfold ticks at this
    omega

theorem sleep_exact_second : (∀ es e, es.Pairwise (· ≤ ·) → sysSleep 5 1000 es = some e → 1000 ≤ e) ∧ 5 + 1000 < 2 ^ 32 :=
  ⟨((sleep_exact_iff 5 1000 (by decide) (by decide)).2 (by decide)).1, by decide⟩

/-- In the last tick before the counter wraps, a sleep of 10 ms returns at once. -/
theorem sleep_returns_early : sysSleep (2 ^ 32 - 1) 10 [0] = some 0 := by decide

/-! ## The keyboard -/

structure Keymap where
  low : Nat → Nat
  high : Nat → Nat

/-- The file-scope state of the driver. -/
structure Kbd where
  shift : Nat
  caps : Bool
  ctrl : Nat
  buf : Nat → Nat
  head : Nat
  tail : Nat

def Kbd.bufPush (s : Kbd) (c : Nat) : Kbd :=
  if (s.head + 1) % 256 = s.tail then s
  else { s with buf := Function.update s.buf s.head c, head := (s.head + 1) % 256 }

/-- A `uint8_t` counter at a make or a break code. -/
def counted (n : Nat) (release : Bool) : Nat := if release then n - 1 else (n + 1) % 256

def letter (c : Nat) : Bool := (97 ≤ c && c ≤ 122) || (65 ≤ c && c ≤ 90)

/-- A character of the layout goes to the buffer, with Caps Lock and Ctrl applied; Ctrl-C is `SIGINT` under `ISIG`. -/
def Kbd.typed (s : Kbd) (isig : Bool) (c : Nat) : Kbd :=
  let c := if s.caps && letter c then (if 97 ≤ c then c - 32 else c + 32) else c
  let c := if s.ctrl ≠ 0 ∧ letter c then c % 32 else c
  if s.ctrl ≠ 0 ∧ c = 3 ∧ isig then s else s.bufPush c

/-- `_kbd_isr` for one scancode; `isig` is the answer of `tty_isig`. -/
def Kbd.isr (km : Keymap) (isig : Bool) (s : Kbd) (sc : Nat) : Kbd :=
  let release := decide (128 ≤ sc)
  let code := sc % 128
  if code = 0x2A ∨ code = 0x36 then { s with shift := counted s.shift release }
  else if code = 0x1D then { s with ctrl := counted s.ctrl release }
  else if code = 0x3A then { s with caps := if release then s.caps else !s.caps }
  else if release then s
  else
    let c := if s.shift ≠ 0 then km.high code else km.low code
    if c = 0 then s else s.typed isig c

theorem typed_modifiers (s : Kbd) (isig : Bool) (c : Nat) :
    (s.typed isig c).shift = s.shift ∧ (s.typed isig c).ctrl = s.ctrl := by
  unfold Kbd.typed Kbd.bufPush
  dsimp only
  split_ifs <;> exact ⟨rfl, rfl⟩

theorem isr_modifiers (km : Keymap) (isig : Bool) (s : Kbd) (sc : Nat) :
    (s.isr km isig sc).shift = (if sc % 128 = 0x2A ∨ sc % 128 = 0x36 then counted s.shift (128 ≤ sc) else s.shift) ∧
    (s.isr km isig sc).ctrl = if sc % 128 = 0x1D then counted s.ctrl (128 ≤ sc) else s.ctrl := by
  have ht := typed_modifiers s isig (if s.shift ≠ 0 then km.high (sc % 128) else km.low (sc % 128))
  unfold Kbd.isr
  grind

/-- The keys of a PS/2 keyboard by what they send: one code, a code after 0xE0, or a sequence of their own. -/
inductive Key where
  | plain (c : Nat)
  | ext (c : Nat)
  | printScreen
  | pause
  deriving DecidableEq

/-- What a key sends when it is pressed (`true`, and again when it repeats) or released. -/
def Key.codes : Key → Bool → List Nat
  | .plain c, make => [if make then c else c + 128]
  | .ext c, make => [0xE0, if make then c else c + 128]
  | .printScreen, make => if make then [0xE0, 0x2A, 0xE0, 0x37] else [0xE0, 0xB7, 0xE0, 0xAA]
  | .pause, make => if make then [0xE1, 0x1D, 0x45, 0xE1, 0x9D, 0xC5] else []

/-- 0xE0 0x2A and 0xE0 0x36 are no keys but part of what others send. -/
def Key.Real : Key → Prop
  | .plain c => c < 0x60
  | .ext c => c < 0x60 ∧ c ≠ 0x2A ∧ c ≠ 0x36
  | _ => True

def shiftKeys : List Key := [.plain 0x2A, .plain 0x36]

def ctrlKeys : List Key := [.plain 0x1D, .ext 0x1D]

inductive KeyEvent where
  | press (k : Key)
  | again (k : Key)
  | release (k : Key)

/-- One event with the layout and `isig` of the moment; beside the driver, the keys that are held. -/
def keyStep (s : Kbd × List Key) (i : (Keymap × Bool) × KeyEvent) : (Kbd × List Key) × Unit :=
  match i.2 with
  | .press k => (((k.codes true).foldl (Kbd.isr i.1.1 i.1.2) s.1, k :: s.2), ())
  | .again k => (((k.codes true).foldl (Kbd.isr i.1.1 i.1.2) s.1, s.2), ())
  | .release k => (((k.codes false).foldl (Kbd.isr i.1.1 i.1.2) s.1, s.2.erase k), ())

/-- What a keyboard does, but for repeated Shift and Ctrl keys and Print Screen. -/
def Unrepeated (s : Kbd × List Key) (i : (Keymap × Bool) × KeyEvent) : Prop :=
  match i.2 with
  | .press k => k.Real ∧ k ∉ s.2 ∧ k ≠ .printScreen
  | .again k => k.Real ∧ k ∈ s.2 ∧ k ≠ .printScreen ∧ k ≠ .pause ∧ k ∉ shiftKeys ++ ctrlKeys
  | .release k => k.Real ∧ k ∈ s.2 ∧ k ≠ .printScreen

/-- The modifier counters, as the held keys have them. -/
structure Counts (s : Kbd × List Key) : Prop where
  nodup : s.2.Nodup
  shift : s.1.shift = s.2.countP (· ∈ shiftKeys)
  ctrl : s.1.ctrl = s.2.countP (· ∈ ctrlKeys)

/-- A key counts once when it is a modifier, and not otherwise. -/
theorem codes_counted (km : Keymap) (isig : Bool) (s : Kbd) {k : Key} (make : Bool) (hk : k.Real) (hp : k ≠ .printScreen)
    (hc : s.ctrl < 255) : ((k.codes make).foldl (Kbd.isr km isig) s).shift =
      (if k ∈ shiftKeys then counted s.shift (!make) else s.shift) ∧
    ((k.codes make).foldl (Kbd.isr km isig) s).ctrl = if k ∈ ctrlKeys then counted s.ctrl (!make) else s.ctrl := by
  cases k <;> cases make <;>
    simp [Key.codes, isr_modifiers, shiftKeys, ctrlKeys, counted, Key.Real] at hk hp ⊢ <;> grind

theorem countP_keys_le {held : List Key} (h : held.Nodup) (L : List Key) : held.countP (· ∈ L) ≤ L.length := by
  rw [countP_eq_length_filter]
  exact ((h.filter _).subperm (fun k hk => by simpa using (mem_filter.1 hk).2)).length_le

theorem Counts.step {s : Kbd × List Key} (h : Counts s) (i : (Keymap × Bool) × KeyEvent) (hi : Unrepeated s i) :
    Counts (keyStep s i).1 := by
  obtain ⟨⟨km, isig⟩, ev⟩ := i
  have h2 := countP_keys_le h.nodup ctrlKeys
  have hc : s.1.ctrl < 255 := by rw [h.ctrl]; exact lt_of_le_of_lt h2 (by decide)
  cases ev with
  | press k =>
    obtain ⟨hk, hnew, hp⟩ := hi
    have hn : (k :: s.2).Nodup := nodup_cons.2 ⟨hnew, h.nodup⟩
    obtain ⟨hs, hct⟩ := codes_counted km isig s.1 true hk hp hc
    have h1 := countP_keys_le hn shiftKeys
    have h2 := countP_keys_le hn ctrlKeys
    rw [countP_cons, show shiftKeys.length = 2 from rfl] at h1
    rw [countP_cons, show ctrlKeys.length = 2 from rfl] at h2
    refine ⟨hn, hs.trans ?_, hct.trans ?_⟩
    · rw [keyStep, countP_cons, h.shift, counted]
      grind
    · rw [keyStep, countP_cons, h.ctrl, counted]
      grind
  | again k =>
    obtain ⟨hk, -, hp, -, hm⟩ := hi
    obtain ⟨hs, hct⟩ := codes_counted km isig s.1 true hk hp hc
    rw [mem_append, not_or] at hm
    exact ⟨h.nodup, (hs.trans (if_neg hm.1)).trans h.shift, (hct.trans (if_neg hm.2)).trans h.ctrl⟩
  | release k =>
    obtain ⟨hk, hin, hp⟩ := hi
    obtain ⟨hs, hct⟩ := codes_counted km isig s.1 false hk hp hc
    refine ⟨h.nodup.erase k, hs.trans ?_, hct.trans ?_⟩
    · rw [keyStep, countP_erase, h.shift, counted]
      grind
    · rw [keyStep, countP_erase, h.ctrl, counted]
      grind

def kbdInit : Kbd := ⟨0, false, 0, fun _ => 0, 0, 0⟩

/-- Where `kbd_poll` is when an interrupt comes: between two calls, after its test, or with the byte read. -/
inductive Poll where
  | idle
  | tested
  | got (c : Nat)

/-- `_buf_push` from the interrupt handler, or the next statement of `kbd_poll`. -/
inductive RingOp where
  | push (c : Nat)
  | poll

/-- The driver and its reader; beside them, the bytes pushed while fewer than 255 were unread, and the bytes returned. -/
structure Reader where
  kbd : Kbd
  pc : Poll
  kept : List Nat
  read : List Nat

/-- One step, with what `kbd_poll` returns when it does: `none` is -1. -/
def Reader.step (s : Reader) : RingOp → Reader × Option (Option Nat)
  | .push c =>
    ({ s with kbd := s.kbd.bufPush c, kept := if s.kept.length - s.read.length = 255 then s.kept else s.kept ++ [c] }, none)
  | .poll => match s.pc with
    | .idle => if s.kbd.tail = s.kbd.head then (s, some none) else ({ s with pc := .tested }, none)
    | .tested => ({ s with pc := .got (s.kbd.buf s.kbd.tail) }, none)
    | .got c => ({ s with kbd.tail := (s.kbd.tail + 1) % 256, pc := .idle, read := s.read ++ [c] }, some (some c))

/-- The driver's indices, named from the writer's side, as a ring of which one cell stays free. -/
def Kbd.ring (s : Kbd) : Ring Nat := ⟨s.buf, s.tail, s.head, (s.head + 256 - s.tail) % 256⟩

structure Reader.Fifo (s : Reader) : Prop where
  head : s.kbd.head < 256
  tail : s.kbd.tail < 256
  kept : s.kept = s.read ++ s.kbd.ring.contents 256
  busy : s.pc ≠ .idle → s.kbd.tail ≠ s.kbd.head
  got : ∀ c, s.pc = .got c → c = s.kbd.buf s.kbd.tail

variable {s : Reader}

theorem Reader.Fifo.ok (h : s.Fifo) : s.kbd.ring.Ok 256 :=
  ⟨h.tail, (mod_lt _ (by decide)).le, by have := h.head; have := h.tail; simp only [Kbd.ring]; omega⟩

theorem Reader.Fifo.unread (h : s.Fifo) : s.kept.length - s.read.length = (s.kbd.head + 256 - s.kbd.tail) % 256 := by
  rw [h.kept, length_append, Ring.length_contents, Nat.add_sub_cancel_left, Kbd.ring]

theorem Reader.Fifo.push (h : s.Fifo) (c : Nat) : (s.step (.push c)).1.Fifo := by
  have hh := h.head
  have ht := h.tail
  have hu := h.unread
  unfold Reader.step Kbd.bufPush
  dsimp only
  by_cases hfull : (s.kbd.head + 1) % 256 = s.kbd.tail
  · rw [if_pos hfull, if_pos (by omega)]
    exact ⟨hh, ht, h.kept, h.busy, h.got⟩
  rw [if_neg hfull, if_neg (by omega)]
  refine ⟨mod_lt _ (by decide), ht, ?_, fun _ => Ne.symm hfull, fun d hd => ?_⟩
  · rw [h.kept, append_assoc, ← Ring.contents_push h.ok (mod_lt _ (by decide))]
    simp only [Ring.push, Kbd.ring, show (s.kbd.head + 256 - s.kbd.tail) % 256 + 1 =
      ((s.kbd.head + 1) % 256 + 256 - s.kbd.tail) % 256 by omega]
  -- the byte the reader is about to take is not in the cell written
  · exact (h.got d hd).trans (update_of_ne (h.busy (by rw [hd]; nofun)) _ _).symm

theorem Reader.Fifo.poll (h : s.Fifo) : (s.step .poll).1.Fifo := by
  have hh := h.head
  have ht := h.tail
  unfold Reader.step
  cases hp : s.pc with
  | idle =>
    dsimp only
    split
    · exact h
    · rename_i hne
      exact ⟨hh, ht, h.kept, fun _ => hne, nofun⟩
  | tested => exact ⟨hh, ht, h.kept, fun _ => h.busy (by rw [hp]; nofun), fun _ hc => by injection hc with hc; exact hc.symm⟩
  | got c =>
    have hne := h.busy (by rw [hp]; nofun)
    refine ⟨hh, mod_lt _ (by decide), ?_, fun hi => absurd rfl hi, nofun⟩
    have hpop := Ring.contents_pop h.ok (show 0 < (s.kbd.head + 256 - s.kbd.tail) % 256 by omega)
    rw [h.kept, hpop, h.got c hp, append_assoc]
    simp only [Ring.pop, Kbd.ring, singleton_append, show (s.kbd.head + 256 - s.kbd.tail) % 256 - 1 =
      (s.kbd.head + 256 - (s.kbd.tail + 1) % 256) % 256 by omega]

/-- **The keyboard buffer is a bounded FIFO**, wherever the interrupts come: what was returned is an initial part of what was
pushed while fewer than 255 bytes were unread, at most 255 bytes are missing, and -1 is returned when none is. -/
theorem kbd_ring_fifo (ops : List RingOp) : let s := (run Reader.step ⟨kbdInit, .idle, [], []⟩ ops).1
    s.kbd.head < 256 ∧ s.kbd.tail < 256 ∧ s.read <+: s.kept ∧ s.kept.length - s.read.length ≤ 255 ∧
    ((s.step .poll).2 = some none ↔ s.pc = .idle ∧ s.read = s.kept) := by
  have h := run_inv (P := Reader.Fifo) (C := fun _ _ => True) (fun s i hs _ => by cases i; exacts [hs.push _, hs.poll]) ops
    ⟨kbdInit, .idle, [], []⟩ ⟨by decide, by decide, rfl, fun hi => absurd rfl hi, nofun⟩ (fun _ _ _ _ => trivial)
  generalize (run Reader.step _ ops).1 = s at h ⊢
  have hh := h.head
  have ht := h.tail
  have hu := h.unread
  have hpre : s.read <+: s.kept := ⟨_, h.kept.symm⟩
  refine ⟨hh, ht, hpre, by omega, ?_⟩
  have hnone : s.read = s.kept ↔ s.kbd.tail = s.kbd.head :=
    ⟨fun he => by rw [he] at hu; omega, fun he => hpre.eq_of_length (by have := hpre.length_le; omega)⟩
  rw [hnone, Reader.step]
  split
  · rename_i hp
    split <;> simp [*]
  all_goals rename_i hp; simp [hp]

/-! ## The disk -/

/-- What `ata_read` and `ata_write` program, and the words of the buffer at which the sectors they then move begin. -/
structure Chunk where
  drv : Nat
  count : Nat
  lo : Nat
  mid : Nat
  hi : Nat
  cmd : Nat
  words : List Nat

def Chunk.lba (c : Chunk) : Nat := c.drv % 16 * 2 ^ 24 + c.hi * 2 ^ 16 + c.mid * 2 ^ 8 + c.lo

/-- The answers of `_timeout` and of `_wait_drq` for each sector of a command. -/
structure Answers where
  ready : Bool
  drq : Nat → Bool

end Noxis.Drivers
