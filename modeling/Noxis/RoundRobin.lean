import Noxis.Sched
/-!
# RoundRobin — when a queued process runs

`scheduler_yield` takes the head of the ready queue, and everything that enters the queue enters it behind.  So a process in
the queue moves one place forward with each call of `scheduler_yield`, and by nothing else: `Turned` is what one step does to
the queue, `Rep.run_turned` what a run does, and `round_robin_strict` says at which call the process runs.
-/
namespace Noxis

open List Function
namespace Sched

open Linked

/-- Whether the step calls `scheduler_yield`: itself, from the timer when the quantum is used up, from `scheduler_exit`, or
from a turn of `sys_waitpid` that finds nobody to reap. -/
def yields (s : Sched) : Event → Bool
  | .yield => true
  | .tick none => decide (s.quantum s.current - 1 = 0)
  | .tick (some _) => s.user s.current || decide (s.quantum s.current - 1 = 0)
  | .fork _ => false
  | .exit _ => s.user s.current
  | .waitpid pid => s.user s.current && s.schedulerReap s.current pid == some none

def yieldCalls : Sched → List Event → Nat
  | _, [] => 0
  | s, e :: es => (if s.yields e then 1 else 0) + yieldCalls (s.step e).1 es

/-- **What a step does to the queue**: a call of `scheduler_yield` runs the head, and whatever is new is behind the rest. -/
structure Turned (s : Sched) (q : List Nat) (s' : Sched) (called : Bool) : Prop where
  stays : called = false → s'.current = s.current ∧ ∃ l all, Rep s' (q ++ l) all
  turns : called = true → ∀ n q1, q = n :: q1 → s'.current = n ∧ ∃ l all, Rep s' (q1 ++ l) all

namespace Rep

variable {s : Sched} {q all : List Nat}

section

variable (h : Rep s q all)
include h

theorem stays : Turned s q s false :=
  ⟨fun _ => ⟨rfl, [], all, by rw [append_nil]; exact h⟩, fun hc => (by cases hc)⟩

theorem turned_yield : Turned s q s.schedulerYield true := by
  refine ⟨fun hc => (by cases hc), fun _ n q1 hq => ?_⟩
  subst hq
  obtain ⟨hr, hcur, -⟩ := h.yield_spec
  exact ⟨hcur, _, _, hr⟩

theorem turned_tick : Turned s q s.schedulerTick (decide (s.quantum s.current - 1 = 0)) := by
  have h1 := h.ticked
  unfold schedulerTick
  simp only [Function.update_self]
  by_cases hz : s.quantum s.current - 1 = 0
  · rw [if_pos hz, decide_eq_true hz]
    exact ⟨fun hc => (by cases hc), h1.turned_yield.turns⟩
  · rw [if_neg hz, decide_eq_false hz]
    exact ⟨h1.stays.stays, fun hc => (by cases hc)⟩

theorem turned_exit (hu : s.user s.current = true) (code : Int) : Turned s q (s.schedulerExit code) true := by
  refine ⟨fun hc => (by cases hc), fun _ n q1 hq => ?_⟩
  subst hq
  obtain ⟨hr, hcur, -⟩ := h.exit_spec (h.current_mem hu).1 code
  exact ⟨hcur, [], all, by rw [append_nil]; exact hr⟩

theorem turned_fork {a : Nat} (ha : a ∉ s.structs) (hu : s.user s.current = true) :
    Turned s q ((s.procAlloc a (some s.current) true).schedulerRegister a) false :=
  ⟨fun _ => ⟨(register_kept s a (some s.current) true).current, [a], _, (h.fork_next ha hu).rep⟩, fun hc => (by cases hc)⟩

theorem turned_wait (pid : Int) : Turned s q (s.waitTurn pid).1 (s.schedulerReap s.current pid == some none) := by
  unfold waitTurn
  rw [h.reap_eq]
  cases hf : all.find? (s.reapable s.current pid) with
  | none => exact h.turned_yield
  | some z =>
    obtain ⟨hz, hzombie, -⟩ := find_reapable hf
    obtain ⟨s1, all', hrem, hr, -, -, hcur, -⟩ := h.remove hz hzombie
    dsimp only
    rw [hrem]
    exact ⟨fun _ => ⟨hcur, [], all', by rw [append_nil]; exact hr⟩, fun hc => (by cases hc)⟩

theorem step_turned (e : Event) : Turned s q (s.step e).1 (s.yields e) := by
  cases e with
  | yield => exact h.turned_yield
  | tick fatal =>
    cases fatal with
    | none => exact h.turned_tick
    | some sig =>
      simp only [step, yields]
      cases hu : s.user s.current with
      | true => exact h.turned_exit hu (128 + sig)
      | false => exact h.turned_tick
  | fork a =>
    simp only [step, yields]
    split
    · rename_i hc
      exact h.turned_fork hc.2 hc.1
    · exact h.stays
  | exit code =>
    simp only [step, yields]
    cases hu : s.user s.current with
    | true => exact h.turned_exit hu code
    | false => exact h.stays
  | waitpid pid =>
    simp only [step, yields]
    cases hu : s.user s.current with
    | true => exact h.turned_wait pid
    | false => exact h.stays

end

/-- **A whole run.**  Up to the `k`-th call the process at place `k` waits, as many places further in front as there were
calls. -/
theorem run_turned {p : Nat} : ∀ (es : List Event) {s : Sched} {q all : List Nat} {k : Nat}, Rep s q all → q[k]? = some p →
    yieldCalls s es ≤ k → ∃ q' all', Rep (run step s es).1 q' all' ∧ q'[k - yieldCalls s es]? = some p
  | [], s, q, all, k, h, hk, _ => ⟨q, all, h, hk⟩
  | e :: es, s, q, all, k, h, hk, hle => by
    have ht := h.step_turned e
    rw [yieldCalls] at hle ⊢
    rw [run_cons]
    cases hy : s.yields e with
    | false =>
      rw [hy] at hle ht
      obtain ⟨-, l, all', hr⟩ := ht.stays rfl
      have hk' : (q ++ l)[k]? = some p := by
        rw [List.getElem?_append_left (List.getElem?_eq_some_iff.1 hk).1]
        exact hk
      obtain ⟨q', all'', hr', hp⟩ := run_turned es hr hk' (by simpa using hle)
      exact ⟨q', all'', hr', by simpa using hp⟩
    | true =>
      rw [hy] at hle ht
      simp only [if_true] at hle ⊢
      obtain ⟨k, rfl⟩ : ∃ j, k = j + 1 := ⟨k - 1, by omega⟩
      cases q with
      | nil => cases hk
      | cons n q1 =>
        rw [List.getElem?_cons_succ] at hk
        obtain ⟨-, l, all', hr⟩ := ht.turns rfl n q1 rfl
        have hk' : (q1 ++ l)[k]? = some p := by
          rw [List.getElem?_append_left (List.getElem?_eq_some_iff.1 hk).1]
          exact hk
        obtain ⟨q', all'', hr', hp⟩ := run_turned es hr hk' (by omega)
        exact ⟨q', all'', hr', by rw [show k + 1 - (1 + yieldCalls (s.step e).1 es) = k - yieldCalls (s.step e).1 es by omega]; exact hp⟩

end Rep

/-- **Round-robin order is strict.**  In every state a run from the boot sequence reaches, the process `p` at place `k` of the
ready queue does not run before `scheduler_yield` has been called `k + 1` times, and the `k + 1`-st call makes it the running
process, whatever happens in between. -/
theorem round_robin_strict (up hb : Nat) (hup : up ≠ idle) (hhb : hb ≠ idle) (hne : up ≠ hb) (es : List Event) (q : List Nat)
    (hq : Chain (run step (boot up hb) es).1.next (run step (boot up hb) es).1.readyHead q) (k p : Nat) (hk : q[k]? = some p)
    (pre : List Event) :
    (yieldCalls (run step (boot up hb) es).1 pre ≤ k → (run step (run step (boot up hb) es).1 pre).1.current ≠ p) ∧
    ∀ e, yieldCalls (run step (boot up hb) es).1 pre = k → (run step (run step (boot up hb) es).1 pre).1.yields e = true →
      ((run step (run step (boot up hb) es).1 pre).1.step e).1.current = p := by
  obtain ⟨q0, all0, h0⟩ := boot_rep hup hhb hne
  obtain ⟨q1, all, h, -⟩ := h0.run_next es
  obtain rfl : q = q1 := hq.unique h.ready
  generalize (run step (boot up hb) es).1 = s at *
  refine ⟨fun hle hcur => ?_, fun e heq hy => ?_⟩
  · obtain ⟨q', all', hr, hp⟩ := h.run_turned pre hk hle
    exact (nodup_cons.1 hr.once).1 (hcur ▸ mem_of_getElem? hp)
  · obtain ⟨q', all', hr, hp⟩ := h.run_turned pre hk (le_of_eq heq)
    rw [heq, Nat.sub_self] at hp
    cases q' with
    | nil => cases hp
    | cons n q' =>
      rw [List.getElem?_cons_zero] at hp
      have ht := hr.step_turned e
      rw [hy] at ht
      exact (ht.turns rfl n q' rfl).1.trans (Option.some.inj hp)

/-- The shell forks twice; the heartbeat, the idle context, the first child and the second one are in the queue, and with the
fourth call, which is the exit of the first child, the second one runs. -/
theorem round_robin_strict_forks : (run step (boot 1 2) [.fork 3, .fork 4, .waitpid 0, .tick none, .yield, .yield]).1.current = 3 ∧
    ((run step (run step (boot 1 2) [.fork 3, .fork 4]).1 [.waitpid 0, .tick none, .yield, .yield]).1.step (.exit 0)).1.current =
      4 :=
  ⟨by decide, (round_robin_strict 1 2 (by decide) (by decide) (by decide) [.fork 3, .fork 4] [2, 0, 3, 4]
    ⟨by decide, by decide, by decide, by decide, show _ = none by decide⟩ 3 4 rfl [.waitpid 0, .tick none, .yield, .yield]).2 (.exit 0)
    (by decide) (by decide)⟩

end Sched
end Noxis
