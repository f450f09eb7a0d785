import Noxis.Sched
import Noxis.Kheap
/-!
# Parents — whose children `sys_waitpid` reaps

`scheduler_reap` takes a zombie for a child of the caller when its `parent` field is the address of the caller's
`process_t`.  The structures are freed when they are reaped, and the heap hands their addresses out again, so the field of an
orphan may come to name a process that never forked it.

`Forked` is parenthood as the history has it.  While no structure is allocated at an address that some `parent` field still
holds (`Unclaimed`), the fields of the registered processes agree with the history (`Kin`), and `sys_waitpid` reports own
children only.
-/
namespace Noxis

open List Function
namespace Sched

/-- Somewhere along `es` the process `p` executed the `sys_fork` that created the process `z`. -/
def Forked (s : Sched) (es : List Event) (p z : Nat) : Prop :=
  ∃ pre a post, es = pre ++ .fork a :: post ∧ (run step s pre).1.user (run step s pre).1.current = true ∧
    a ∉ (run step s pre).1.structs ∧ (run step s pre).1.pid (run step s pre).1.current = p ∧ (run step s pre).1.nextPid = z

def Unclaimed (s : Sched) (a : Nat) : Prop := ∀ p ∈ s.structs, s.parent p ≠ some a

/-- The `parent` fields that name a registered process agree with `R`, a relation between pids. -/
def Kin (R : Nat → Nat → Prop) (s : Sched) (all : List Nat) : Prop :=
  ∀ p ∈ all, ∀ a ∈ all, s.parent p = some a → R (s.pid a) (s.pid p)

theorem Forked.snoc {s : Sched} {es : List Event} {p z : Nat} (e : Event) (h : Forked s es p z) : Forked s (es ++ [e]) p z := by
  obtain ⟨pre, a, post, rfl, h⟩ := h
  exact ⟨pre, a, post ++ [e], by rw [append_assoc, cons_append], h⟩

section Step

variable {s : Sched} {q all : List Nat} {R : Nat → Nat → Prop}

theorem Kin.of_kept {s' : Sched} (h : Kin R s all) (hpar : s'.parent = s.parent) (hpid : s'.pid = s.pid) : Kin R s' all := by
  unfold Kin
  rw [hpar, hpid]
  exact h

theorem tick_kept (s : Sched) : Kept s s.schedulerTick := by
  unfold schedulerTick
  dsimp only
  split
  · have hk := yield_kept { s with quantum := update s.quantum s.current (s.quantum s.current - 1) }
    exact ⟨hk.allHead, hk.allNext, hk.parent, hk.pid, hk.user, hk.nextPid, hk.structs⟩
  · exact ⟨rfl, rfl, rfl, rfl, rfl, rfl, rfl⟩

theorem exit_kept (s : Sched) (code : Int) : Kept s (s.schedulerExit code) := by
  have hk := yield_kept { s with
    exitCode := update s.exitCode s.current code, state := update s.state s.current .zombie }
  exact ⟨hk.allHead, hk.allNext, hk.parent, hk.pid, hk.user, hk.nextPid, hk.structs⟩

theorem register_parent (s : Sched) (a : Nat) (par : Option Nat) (u : Bool) :
    ((s.procAlloc a par u).schedulerRegister a).parent = update s.parent a par :=
  (add_kept _ a).parent

section

variable (h : Rep s q all) (hk : Kin R s all)
include h hk

theorem Kin.fork {a : Nat} (hu : s.user s.current = true) (ha : a ∉ s.structs) (hc : s.Unclaimed a)
    (hnew : R (s.pid s.current) s.nextPid) : Kin R ((s.procAlloc a (some s.current) true).schedulerRegister a)
    (a :: all) := by
  have hpid := (register_kept s a (some s.current) true).pid
  have hpar := register_parent s a (some s.current) true
  have hne : ∀ p ∈ all, p ≠ a := fun p hp hx => ha (hx ▸ h.alloc p (mem_cons_of_mem _ hp))
  have hcur := hne _ (h.current_mem hu).2
  intro p hp b hb hpb
  rw [hpar] at hpb
  rw [hpid]
  by_cases hpa : p = a
  · subst hpa
    rw [update_self, Option.some.injEq] at hpb
    subst hpb
    rw [update_self, update_of_ne hcur]
    exact hnew
  · have hp' := mem_of_ne_of_mem hpa hp
    rw [update_of_ne hpa] at hpb
    have hba : b ≠ a := fun hx => hc p (h.alloc p (mem_cons_of_mem _ hp')) (hx ▸ hpb)
    rw [update_of_ne hpa, update_of_ne hba]
    exact hk p hp' b (mem_of_ne_of_mem hba hb) hpb

theorem wait_kin (hu : s.user s.current = true) (pid : Int) : ∃ q' all', Rep (s.waitTurn pid).1 q' all' ∧
    Kin R (s.waitTurn pid).1 all' ∧ ∀ z, (s.waitTurn pid).2 = some (.reaped z) → R (s.pid s.current) z := by
  unfold waitTurn
  rw [h.reap_eq]
  cases hf : all.find? (s.reapable s.current pid) with
  | none =>
    obtain ⟨q', hn⟩ := h.yield_next
    exact ⟨q', all, hn.rep, hk.of_kept (yield_kept s).parent (yield_kept s).pid, fun z hz => by cases hz⟩
  | some z =>
    obtain ⟨hz, hzombie, hpz⟩ := Rep.find_reapable hf
    obtain ⟨s1, all', hrem, hr, hk1, -, -, hmem⟩ := h.remove hz hzombie
    have hpid : s1.pid = s.pid := hk1.pid
    have hpar : s1.parent = s.parent := hk1.parent
    dsimp only
    rw [hrem]
    refine ⟨q, all', hr, fun p hp' b hb => ?_, fun n hn => ?_⟩
    · dsimp only
      rw [hpid, hpar]
      exact hk p ((hmem p).1 hp').1 b ((hmem b).1 hb).1
    · obtain rfl : s.pid z = n := by cases hn; rfl
      exact hk z hz s.current (h.current_mem hu).2 hpz

theorem step_kin (e : Event) (hfork : ∀ a, e = .fork a → s.user s.current = true → a ∉ s.structs → s.Unclaimed a ∧
    R (s.pid s.current) s.nextPid) : ∃ q' all', Rep (s.step e).1 q' all' ∧ Kin R (s.step e).1 all' ∧
    ∀ z, (s.step e).2 = some (.reaped z) → R (s.pid s.current) z := by
  have htick : ∃ q' all', Rep s.schedulerTick q' all' ∧ Kin R s.schedulerTick all' := by
    obtain ⟨q', hn⟩ := h.tick_next
    exact ⟨q', all, hn.rep, hk.of_kept (tick_kept s).parent (tick_kept s).pid⟩
  have hexit : s.user s.current = true → ∀ code, ∃ q' all', Rep (s.schedulerExit code) q' all' ∧
      Kin R (s.schedulerExit code) all' := fun hu code => by
    obtain ⟨q', hn⟩ := h.exit_next hu code
    exact ⟨q', all, hn.rep, hk.of_kept (exit_kept s code).parent (exit_kept s code).pid⟩
  cases e with
  | yield =>
    obtain ⟨q', hn⟩ := h.yield_next
    exact ⟨q', all, hn.rep, hk.of_kept (yield_kept s).parent (yield_kept s).pid, fun z hz => by cases hz⟩
  | tick fatal =>
    obtain ⟨q', all', hr, hk'⟩ := htick
    cases fatal with
    | none => exact ⟨q', all', hr, hk', fun z hz => by cases hz⟩
    | some sig =>
      simp only [step]
      split
      · rename_i hu
        obtain ⟨q', all', hr, hk'⟩ := hexit hu (128 + sig)
        exact ⟨q', all', hr, hk', fun z hz => by cases hz⟩
      · exact ⟨q', all', hr, hk', fun z hz => by cases hz⟩
  | fork a =>
    simp only [step]
    split
    · rename_i hc
      obtain ⟨hclear, hnew⟩ := hfork a rfl hc.1 hc.2
      exact ⟨q ++ [a], a :: all, (h.fork_next hc.2 hc.1).rep, hk.fork h hc.1 hc.2 hclear hnew, fun z hz => by cases hz⟩
    · exact ⟨q, all, h, hk, fun z hz => by cases hz⟩
  | exit code =>
    simp only [step]
    split
    · rename_i hu
      obtain ⟨q', all', hr, hk'⟩ := hexit hu code
      exact ⟨q', all', hr, hk', fun z hz => by cases hz⟩
    · exact ⟨q, all, h, hk, fun z hz => by cases hz⟩
  | waitpid pid =>
    simp only [step]
    split
    · rename_i hu
      exact wait_kin h hk hu pid
    · exact ⟨q, all, h, hk, fun z hz => by cases hz⟩

end

end Step

/-- Every fork of the run takes an address that no `parent` field holds. -/
def ForksClear (s : Sched) (es : List Event) : Prop :=
  ∀ pre a post, es = pre ++ .fork a :: post → (run step s pre).1.Unclaimed a

theorem ForksClear.init {s : Sched} {es es' : List Event} (h : ForksClear s (es ++ es')) : ForksClear s es := by
  rintro pre a post rfl
  exact h pre a (post ++ es') (by rw [append_assoc, cons_append])

theorem ForksClear.last {s : Sched} {es : List Event} {e : Event} (h : ForksClear s (es ++ [e])) (a : Nat) (he : e = .fork a)
    (hu : (run step s es).1.user (run step s es).1.current = true) (ha : a ∉ (run step s es).1.structs) :
    (run step s es).1.Unclaimed a ∧
      Forked s (es ++ [e]) ((run step s es).1.pid (run step s es).1.current) (run step s es).1.nextPid := by
  subst he
  exact ⟨h es a [] rfl, es, a, [], rfl, hu, ha, rfl, rfl⟩

/-- **A whole run.**  The fields agree with the history. -/
theorem run_kin {s : Sched} {q all : List Nat} (h : Rep s q all) (hpar : ∀ p ∈ all, s.parent p = none) (es : List Event)
    (hc : ForksClear s es) : ∃ q' all', Rep (run step s es).1 q' all' ∧ Kin (Forked s es) (run step s es).1 all' := by
  -- the history grows at its end, so the induction is on the last step
  induction es using List.reverseRecOn with
  | nil =>
    refine ⟨q, all, h, fun p hp a _ hpa => ?_⟩
    have hnone : s.parent p = some a := hpa
    rw [hpar p hp] at hnone
    cases hnone
  | append_singleton es e ih =>
    obtain ⟨q1, all1, hr, hk⟩ := ih hc.init
    have hk' : Kin (Forked s (es ++ [e])) (run step s es).1 all1 := fun p hp a ha hpa => (hk p hp a ha hpa).snoc e
    obtain ⟨q2, all2, hr2, hk2, -⟩ := step_kin hr hk' e (hc.last)
    rw [run_append]
    exact ⟨q2, all2, hr2, hk2⟩

theorem boot_parent (up hb : Nat) (p : Nat) : (boot up hb).parent p = none := by
  rw [boot, (yield_kept _).parent, spawned]
  rw [register_parent, register_parent]
  by_cases hph : p = hb
  · rw [hph, update_self]
  rw [update_of_ne hph]
  by_cases hpu : p = up
  · rw [hpu, update_self]
  · rw [update_of_ne hpu]
    rfl

/-- **`sys_waitpid` reaps own children**, in every run in which no fork is given the address of a structure that some
process still has as its parent: the process that a call reports, and frees, was created by a `sys_fork` that the caller
executed. -/
theorem waitpid_reaps_own (up hb : Nat) (hup : up ≠ idle) (hhb : hb ≠ idle) (hne : up ≠ hb) (es : List Event)
    (hclear : ForksClear (boot up hb) es) (pre : List Event) (pid : Int) (post : List Event) (z : Nat)
    (hes : es = pre ++ .waitpid pid :: post) (hz : ((run step (boot up hb) pre).1.step (.waitpid pid)).2 = some (.reaped z)) :
    Forked (boot up hb) pre ((run step (boot up hb) pre).1.pid (run step (boot up hb) pre).1.current) z := by
  subst hes
  obtain ⟨q0, all0, h0⟩ := boot_rep hup hhb hne
  obtain ⟨q, all, hr, hk⟩ := run_kin h0 (fun p _ => boot_parent up hb p) pre hclear.init
  obtain ⟨-, -, -, -, hown⟩ := step_kin hr hk (.waitpid pid) (fun a ha => by cases ha)
  exact hown z hz

/-- The shell's child exits and is reaped by the shell. -/
theorem waitpid_reaps_own_child : Forked (boot 1 2) [.fork 3, .waitpid 0, .yield, .yield, .exit 7] 1 3 :=
  waitpid_reaps_own 1 2 (by decide) (by decide) (by decide) [.fork 3, .waitpid 0, .yield, .yield, .exit 7, .waitpid (-1)]
    (by
      intro pre a post hp
      rcases pre with _ | ⟨e1, _ | ⟨e2, _ | ⟨e3, _ | ⟨e4, _ | ⟨e5, _ | ⟨e6, pre⟩⟩⟩⟩⟩⟩
      · exact fun p _ hpar => by
          have hnone := (boot_parent 1 2 p).symm.trans hpar
          cases hnone
      all_goals simp at hp)
    [.fork 3, .waitpid 0, .yield, .yield, .exit 7] (-1) [] 3 rfl (by decide +kernel)

/-! ## An orphan of a reused address -/

/-- What a boot, two forks, a reap and a third fork ask of an empty heap: the structures and kernel stacks of the shell, the
heartbeat thread, a child and a grandchild; the child's two blocks freed; and a last structure. -/
def orphanHeap : List Kheap.Call :=
  [.kmalloc procBytes, .kmalloc procKstackSize, .kmalloc procBytes, .kmalloc procKstackSize,
   .kmalloc procBytes, .kmalloc procKstackSize, .kmalloc procBytes, .kmalloc procKstackSize,
   .kfree (heapBase + 51152), .kfree (heapBase + 45056), .kmalloc procBytes]

/-- The shell forks a child, which forks a grandchild and exits; the shell reaps the child and forks again, at the address
that was freed; the grandchild exits, and the new process waits for any child. -/
def orphanRun : List Event :=
  [.fork (heapBase + 45056), .waitpid 0, .yield, .yield, .fork (heapBase + 67568), .exit 0, .waitpid 0,
   .fork (heapBase + 45056), .yield, .yield, .yield, .exit 0]

/-- **A process reaps a child it never forked.**  The heap gives the freed structure out again (the third and the last
address are the same), and the third fork's process, 5, which has not forked at all, is told about 4. -/
theorem waitpid_reaps_orphan : (run Kheap.Pool.step (Kheap.Pool.boot fun _ => 0) orphanHeap).2 =
      [heapBase + 32, heapBase + 6128, heapBase + 22544, heapBase + 28640, heapBase + 45056, heapBase + 51152,
       heapBase + 67568, heapBase + 73664, 0, 0, heapBase + 45056] ∧
    (run step (boot (heapBase + 32) (heapBase + 22544)) orphanRun).1.pid
      (run step (boot (heapBase + 32) (heapBase + 22544)) orphanRun).1.current = 5 ∧
    ((run step (boot (heapBase + 32) (heapBase + 22544)) orphanRun).1.step (.waitpid 0)).2 = some (.reaped 4) ∧
    ¬ Forked (boot (heapBase + 32) (heapBase + 22544)) orphanRun 5 4 := by
  -- the process 5 runs only once the run is over
  have hpids : ∀ k < orphanRun.length, (run step (boot (heapBase + 32) (heapBase + 22544)) (orphanRun.take k)).1.pid
      (run step (boot (heapBase + 32) (heapBase + 22544)) (orphanRun.take k)).1.current ≠ 5 := by
    decide +kernel
  refine ⟨by decide +kernel, by decide +kernel, by decide +kernel, ?_⟩
  rintro ⟨pre, a, post, hes, -, -, hpid, -⟩
  refine hpids pre.length ?_ ?_
  · rw [hes, length_append, length_cons]
    omega
  · rw [hes, take_left]
    exact hpid

end Sched
end Noxis
