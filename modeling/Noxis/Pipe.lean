import Noxis.Ring
import Noxis.Run
/-!
# Pipe — anonymous pipes (`proc/pipe.c`)

A `pipe_read` or `pipe_write` that has to wait calls `scheduler_yield` and goes on with its loop when it is resumed, so a
call is cut into segments that run without interruption (`readSeg`, `writeSeg`).  `PipeSys` is one pipe with any number of
processes, each of them idle or waiting inside a call; an event starts a call, resumes one, or changes the end counts the
way `dup`, `fork` and `close` do.  `accepted` and `delivered` record every byte the writers handed in and every byte
the readers were handed, in order.
-/
namespace Noxis

open List Nat

def pipeCap : Nat := 4096

structure Pipe extends Ring UInt8 where
  readers : Nat
  writers : Nat
  used : Bool

inductive PipeEnd where
  | r | w
  deriving DecidableEq, Repr

namespace Pipe

/-- The part of `sys_pipe` that sets the pipe up. -/
def opened (p : Pipe) : Pipe := { p with head := 0, tail := 0, count := 0, readers := 1, writers := 1, used := true }

def addref (p : Pipe) : PipeEnd → Pipe
  | .r => { p with readers := p.readers + 1 }
  | .w => { p with writers := p.writers + 1 }

def close (p : Pipe) (e : PipeEnd) : Pipe :=
  let q : Pipe := match e with
    | .r => if 0 < p.readers then { p with readers := p.readers - 1 } else p
    | .w => if 0 < p.writers then { p with writers := p.writers - 1 } else p
  if q.readers = 0 ∧ q.writers = 0 then { q with used := false } else q

/-- `pipe_read` up to its return (`true`) or to its next `scheduler_yield` (`false`), with `left` bytes still wanted: the
bytes it stores in the caller's buffer. -/
def readSeg : Nat → Pipe → Pipe × List UInt8 × Bool
  | 0, p => (p, [], true)
  | left + 1, p =>
    if p.count = 0 then (p, [], decide (p.writers = 0))
    else
      let r := readSeg left { p with toRing := p.pop pipeCap }
      (r.1, p.buf p.head :: r.2.1, r.2.2)

/-- How a segment of `pipe_write` ends: it has written everything, found no reader, or has to wait. -/
inductive WriteEnd where
  | done | broken | full
  deriving DecidableEq, Repr

/-- `pipe_write` up to its return or its next `scheduler_yield`: the number of bytes taken from the caller's buffer. -/
def writeSeg : List UInt8 → Pipe → Pipe × Nat × WriteEnd
  | [], p => (p, 0, .done)
  | b :: bs, p =>
    if p.readers = 0 then (p, 0, .broken)
    else if p.count = pipeCap then (p, 0, .full)
    else
      let r := writeSeg bs { p with toRing := p.push pipeCap b }
      (r.1, r.2.1 + 1, r.2.2)

end Pipe

inductive Waiting where
  | read (got : List UInt8) (left : Nat)
  | write (put : Nat) (rest : List UInt8)

structure PipeSys where
  pipe : Pipe
  waiting : Nat → Option Waiting
  accepted : List UInt8
  delivered : List UInt8

inductive PipeEvent where
  | read (pid len : Nat)
  | write (pid : Nat) (data : List UInt8)
  | resume (pid : Nat)
  | addref (e : PipeEnd)
  | close (e : PipeEnd)

/-- What a call returns: the bytes a `pipe_read` of `len` bytes got, or the result of a `pipe_write`. -/
inductive PipeRet where
  | nothing
  | read (got : List UInt8) (len : Nat)
  | write (result : Int)

namespace PipeSys

def reading (s : PipeSys) (pid : Nat) (got : List UInt8) (left : Nat) : PipeSys × PipeRet :=
  let r := s.pipe.readSeg left
  ({ s with
      pipe := r.1
      delivered := s.delivered ++ r.2.1
      waiting := Function.update s.waiting pid
        (if r.2.2 then none else some (.read (got ++ r.2.1) (left - r.2.1.length))) },
    if r.2.2 then .read (got ++ r.2.1) (got.length + left) else .nothing)

def writing (s : PipeSys) (pid put : Nat) (rest : List UInt8) : PipeSys × PipeRet :=
  let r := s.pipe.writeSeg rest
  ({ s with
      pipe := r.1
      accepted := s.accepted ++ rest.take r.2.1
      waiting := Function.update s.waiting pid
        (if r.2.2 = .full then some (.write (put + r.2.1) (rest.drop r.2.1)) else none) },
    match r.2.2 with
    | .done => .write (put + r.2.1)
    | .broken => .write (if 0 < put + r.2.1 then ((put + r.2.1 : Nat) : Int) else -1)
    | .full => .nothing)

def step (s : PipeSys) : PipeEvent → PipeSys × PipeRet
  | .read pid len => if (s.waiting pid).isSome then (s, .nothing) else s.reading pid [] len
  | .write pid data => if (s.waiting pid).isSome then (s, .nothing) else s.writing pid 0 data
  | .resume pid =>
    match s.waiting pid with
    | none => (s, .nothing)
    | some (.read got left) => s.reading pid got left
    | some (.write put rest) => s.writing pid put rest
  | .addref e => ({ s with pipe := s.pipe.addref e }, .nothing)
  | .close e => ({ s with pipe := s.pipe.close e }, .nothing)

def fresh (p : Pipe) : PipeSys := ⟨p.opened, fun _ => none, [], []⟩

structure Fifo (s : PipeSys) : Prop where
  ok : s.pipe.Ok pipeCap
  bytes : s.accepted = s.delivered ++ s.pipe.contents pipeCap

end PipeSys

namespace Pipe

theorem close_toRing (p : Pipe) (e : PipeEnd) : (p.close e).toRing = p.toRing := by
  unfold close
  cases e <;> simp only <;> split <;> split <;> rfl

theorem addref_toRing (p : Pipe) (e : PipeEnd) : (p.addref e).toRing = p.toRing := by
  cases e <;> rfl

/-- **A segment of `pipe_read` takes from the front of the queue**, keeps the end counts, and returns short of what was
wanted only from an empty pipe without writers. -/
theorem readSeg_spec : ∀ (left : Nat) (p : Pipe), p.Ok pipeCap → let r := p.readSeg left
    r.1.Ok pipeCap ∧ p.contents pipeCap = r.2.1 ++ r.1.contents pipeCap ∧ r.2.1.length ≤ left ∧ r.1.writers = p.writers ∧
    (r.2.2 = true → r.2.1.length < left → r.1.contents pipeCap = [] ∧ p.writers = 0)
  | 0, p, h => by
    refine ⟨h, rfl, le_refl 0, rfl, fun _ hlt => ?_⟩
    exact absurd hlt (lt_irrefl _)
  | left + 1, p, h => by
    rw [readSeg]
    by_cases hc : p.count = 0
    · rw [if_pos hc]
      refine ⟨h, rfl, zero_le _, rfl, fun hw _ => ⟨?_, of_decide_eq_true hw⟩⟩
      exact length_eq_zero_iff.1 ((Ring.length_contents pipeCap p.toRing).trans hc)
    rw [if_neg hc]
    have hpos : 0 < p.count := pos_of_ne_zero hc
    obtain ⟨h1, h2, h3, h4, h5⟩ := readSeg_spec left { p with toRing := p.pop pipeCap } (h.pop hpos)
    refine ⟨h1, ?_, succ_le_succ h3, h4, fun hr hl => h5 hr (lt_of_succ_lt_succ hl)⟩
    rw [Ring.contents_pop h hpos]
    exact congrArg (p.buf p.head :: ·) h2

/-- **A segment of `pipe_write` appends what it takes.** -/
theorem writeSeg_spec : ∀ (data : List UInt8) (p : Pipe), p.Ok pipeCap → (p.writeSeg data).1.Ok pipeCap ∧
    (p.writeSeg data).1.contents pipeCap = p.contents pipeCap ++ data.take (p.writeSeg data).2.1
  | [], p, h => ⟨h, (append_nil _).symm⟩
  | b :: bs, p, h => by
    rw [writeSeg]
    by_cases hr : p.readers = 0
    · rw [if_pos hr]
      exact ⟨h, (append_nil _).symm⟩
    rw [if_neg hr]
    by_cases hc : p.count = pipeCap
    · rw [if_pos hc]
      exact ⟨h, (append_nil _).symm⟩
    rw [if_neg hc]
    have hlt : p.count < pipeCap := lt_of_le_of_ne h.count hc
    obtain ⟨h1, h2⟩ := writeSeg_spec bs { p with toRing := p.push pipeCap b } (h.push hlt b)
    refine ⟨h1, h2.trans ?_⟩
    show (p.push pipeCap b).contents pipeCap ++ _ = _
    rw [Ring.contents_push h hlt, append_assoc]
    rfl

theorem readSeg_waits : ∀ (left : Nat) (p : Pipe), (p.readSeg left).2.2 = false ↔ p.count < left ∧ p.writers ≠ 0
  | 0, p => by simp [readSeg]
  | left + 1, p => by
    rw [readSeg]
    split
    · next hc => simp [hc]
    · rw [readSeg_waits left]
      exact and_congr_left' (by show p.count - 1 < left ↔ _; omega)

theorem writeSeg_broken : ∀ (data : List UInt8) (p : Pipe), (p.writeSeg data).2.2 = .broken ↔ data ≠ [] ∧ p.readers = 0
  | [], p => by simp [writeSeg]
  | b :: bs, p => by
    rw [writeSeg]
    split
    · next hr => simp [hr]
    · next hr =>
      split
      · simp [hr]
      · exact (writeSeg_broken bs _).trans ⟨fun h => absurd h.2 hr, fun h => absurd h.2 hr⟩

end Pipe

namespace PipeSys

variable {s : PipeSys}

theorem Fifo.reading (h : s.Fifo) (pid : Nat) (got : List UInt8) (left : Nat) : (s.reading pid got left).1.Fifo := by
  obtain ⟨h1, h2, -, -, -⟩ := Pipe.readSeg_spec left s.pipe h.ok
  refine ⟨h1, ?_⟩
  show s.accepted = s.delivered ++ (s.pipe.readSeg left).2.1 ++ (s.pipe.readSeg left).1.contents pipeCap
  rw [h.bytes, h2, append_assoc]

theorem Fifo.writing (h : s.Fifo) (pid put : Nat) (rest : List UInt8) : (s.writing pid put rest).1.Fifo := by
  obtain ⟨h1, h2⟩ := Pipe.writeSeg_spec rest s.pipe h.ok
  refine ⟨h1, ?_⟩
  show s.accepted ++ rest.take (s.pipe.writeSeg rest).2.1 = s.delivered ++ (s.pipe.writeSeg rest).1.contents pipeCap
  rw [h.bytes, h2, append_assoc]

theorem Fifo.of_ring (h : s.Fifo) {p : Pipe} (hp : p.toRing = s.pipe.toRing) : ({ s with pipe := p } : PipeSys).Fifo := by
  refine ⟨?_, ?_⟩
  · show p.toRing.Ok pipeCap
    rw [hp]
    exact h.ok
  · show s.accepted = s.delivered ++ p.toRing.contents pipeCap
    rw [hp]
    exact h.bytes

theorem Fifo.step (h : s.Fifo) (e : PipeEvent) : (s.step e).1.Fifo := by
  cases e with
  | read pid len =>
    simp only [PipeSys.step]
    split
    · exact h
    · exact h.reading pid [] len
  | write pid data =>
    simp only [PipeSys.step]
    split
    · exact h
    · exact h.writing pid 0 data
  | resume pid =>
    simp only [PipeSys.step]
    split
    · exact h
    · exact h.reading pid _ _
    · exact h.writing pid _ _
  | addref e => exact h.of_ring (s.pipe.addref_toRing e)
  | close e => exact h.of_ring (s.pipe.close_toRing e)

theorem fresh_fifo (p : Pipe) : (fresh p).Fifo :=
  ⟨⟨zero_lt_succ 4095, zero_le _, rfl⟩, rfl⟩

theorem short_reading (h : s.Fifo) {pid left len : Nat} {got g : List UInt8}
    (hr : (s.reading pid got left).2 = .read g len) (hlt : g.length < len) :
    (s.reading pid got left).1.accepted = (s.reading pid got left).1.delivered ∧
      (s.reading pid got left).1.pipe.writers = 0 := by
  obtain ⟨-, h2, -, h4, h5⟩ := Pipe.readSeg_spec left s.pipe h.ok
  unfold PipeSys.reading at hr
  simp only at hr
  by_cases hend : (s.pipe.readSeg left).2.2 = true
  · rw [if_pos hend] at hr
    obtain ⟨rfl, rfl⟩ := PipeRet.read.inj hr
    rw [length_append] at hlt
    obtain ⟨hempty, hw⟩ := h5 hend (by omega)
    refine ⟨?_, h4.trans hw⟩
    have hf := (h.reading pid got left).bytes
    have hnil : (s.reading pid got left).1.pipe.contents pipeCap = [] := hempty
    rw [hnil, append_nil] at hf
    exact hf
  · rw [if_neg hend] at hr
    cases hr

theorem writing_ret (pid put : Nat) (rest : List UInt8) (g : List UInt8) (len : Nat) :
    (s.writing pid put rest).2 ≠ .read g len := by
  unfold PipeSys.writing
  simp only
  split <;> simp

theorem short_read (h : s.Fifo) {e : PipeEvent} {g : List UInt8} {len : Nat} (hr : (s.step e).2 = .read g len)
    (hlt : g.length < len) : (s.step e).1.accepted = (s.step e).1.delivered ∧ (s.step e).1.pipe.writers = 0 := by
  cases e with
  | read pid n =>
    simp only [PipeSys.step] at hr ⊢
    by_cases hw : (s.waiting pid).isSome = true
    · simp only [if_pos hw] at hr
      cases hr
    · simp only [if_neg hw] at hr ⊢
      exact short_reading h hr hlt
  | write pid data =>
    simp only [PipeSys.step] at hr
    by_cases hw : (s.waiting pid).isSome = true
    · simp only [if_pos hw] at hr
      cases hr
    · simp only [if_neg hw] at hr
      exact absurd hr (writing_ret pid 0 data g len)
  | resume pid =>
    cases hw : s.waiting pid with
    | none =>
      simp only [PipeSys.step, hw] at hr
      cases hr
    | some w =>
      cases w with
      | read got left =>
        simp only [PipeSys.step, hw] at hr ⊢
        exact short_reading h hr hlt
      | write put rest =>
        simp only [PipeSys.step, hw] at hr
        exact absurd hr (writing_ret pid put rest g len)
  | addref e => cases hr
  | close e => cases hr

/-- **Pipe FIFO.**  After any interleaving of reads, writes, resumptions and changes of the end counts, the delivered bytes
are a prefix of the accepted ones, `count` is the number of bytes in between and at most `PIPE_CAP`, and a `pipe_read` that
returns short does so when every accepted byte is delivered and no writer is left. -/
theorem pipe_fifo (p : Pipe) (es : List PipeEvent) : let s := (run step (fresh p) es).1
    s.delivered <+: s.accepted ∧ s.accepted.length = s.delivered.length + s.pipe.count ∧ s.pipe.count ≤ pipeCap ∧
    ∀ e g len, (s.step e).2 = .read g len → g.length < len →
      (s.step e).1.accepted = (s.step e).1.delivered ∧ (s.step e).1.pipe.writers = 0 := by
  intro s
  have hs : s.Fifo := run_inv (C := fun _ _ => True) (fun s e h _ => h.step e) es (fresh p) (fresh_fifo p)
    (fun _ _ _ _ => trivial)
  refine ⟨⟨s.pipe.contents pipeCap, hs.bytes.symm⟩, ?_, hs.ok.count, fun e g len hr hlt => short_read hs hr hlt⟩
  rw [hs.bytes, length_append, Ring.length_contents]

end PipeSys
end Noxis
