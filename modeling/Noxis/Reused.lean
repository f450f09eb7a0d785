import Noxis.Loaded
import Noxis.Sharers
/-!
# Reused — an address space built in a frame that is still mapped

`Stray s a F` is what the 256th sharer leaves behind (`Sharing.stray`): the address space `a` maps the frame `F`, and `F` is
the free frame that `pmm_alloc_frame` returns next.  An exec in that state builds its new PML4 in `F` and, once CR3 has been
loaded with it, `vmm_free_user_space` drops the last page of the old address space: `F` again (`exec_stray`).  The rest is
the schedule: every list of calls of the processes is made by some run of the processor (`Tied.lift`), so the loaded PML4 is
free memory after a run from boot (`exec_frees_loaded_pml4`).
-/
namespace Noxis

open List Radix Kernel Always
open Sched (idle)

/-! ## Room -/

theorem Room.freeOne {p : Pmm} {k f : Nat} (h : Room p k) (h0 : f ≠ 0) : Room (pmmFreeFrame p f) k := by
  have hne := fun g (hg : g ≠ f) => pmmFreeFrame_ne p g f hg
  refine ⟨by rw [pmmFreeFrame_failed]; exact h.failed, ?_, ?_⟩
  · rw [(hne 0 (Ne.symm h0)).1, (hne 0 (Ne.symm h0)).2]
    exact h.zero
  · refine h.enough.trans ?_
    unfold freeFrames
    rw [pmmFreeFrame_nframes]
    refine Finset.sum_le_sum (fun g _ => ?_)
    by_cases hg : g = f
    · subst hg
      cases hu : p.used g with
      | true => exact Nat.zero_le _
      | false =>
        have hkeep : pmmFreeFrame p g = p := by
          unfold pmmFreeFrame
          exact if_pos (.inr hu)
        rw [hkeep, hu]
    · rw [(hne g hg).2]

theorem Room.freeAll {k : Nat} : ∀ (L : List Nat) {p : Pmm}, Room p k → 0 ∉ L → Room (L.foldl pmmFreeFrame p) k
  | [], _, h, _ => h
  | f :: L, p, h, h0 => by
    rw [mem_cons, not_or] at h0
    exact Room.freeAll L (h.freeOne (Ne.symm h0.1)) h0.2

theorem vmmFreeUserSpace_room {s : Vm} {R : List Nat} (hs : Shape s R) {a k : Nat} (ha : a ∈ R) (h : Room s.pmm k) :
    Room (vmmFreeUserSpace s a).pmm k := by
  obtain ⟨h0, hk⟩ := hs.root a ha
  have hheld : ¬ s.pmm.Held 0 := fun hx => h.ne_zero hx rfl
  rw [vmmFreeUserSpace_eq s a h0 hk]
  refine h.freeAll _ (count_eq_zero.1 ?_)
  rw [count_freeList hs ha (fun p hp ht => hheld (hs.tabHeld a ha p 0 hp ht))]
  have hz := mapCount_eq_zero (s := s) (R := [a]) (f := 0) (fun b hb v hv e he hx => by
    rw [mem_singleton] at hb
    subst hb
    exact hheld (hx ▸ hs.leafHeld b ha v hv e he))
  rw [mapCount_cons] at hz
  omega

/-! ## A frame that is mapped and free -/

/-- The address space `a` maps `F` on its stack page and nothing else; its tables stand; `F` is the first free frame. -/
structure Stray (s : Vm) (a F : Nat) : Prop where
  shape : ∃ s0, Shape s0 [a] ∧ s.mem = s0.mem ∧ s.kpml4 = s0.kpml4 ∧ s.pmm.nframes = s0.pmm.nframes
  held : ∀ p t, TabPath p → follow s.child a p = some t → s.pmm.Held t ∧ s.pmm.refcount t = 1
  kern : s.pmm.Held s.kpml4
  leaf : ∀ v < userPages, (s.leaf a v).map Pte.frame = if v = stackPage then some F else none
  free : s.pmm.Has F 0
  first : ∀ g < F, s.pmm.used g = true

/-- **The last reap of 255 leaves the first process's stack page free.** -/
theorem Sharing.stray {k : Kernel} {F m : Nat} (h : Sharing k F 1 1) (hroom : Room k.vm.pmm m) :
    let r := (run Kernel.step k (reapOne 0)).1
    ∃ f, r.procs = [f] ∧ f.zombie = false ∧ Stray r.vm f.pml4 F ∧ Room r.vm.pmm m ∧ r.halted = false := by
  obtain ⟨c, cs, f, hp, hlen, hz, -, heq, -, d, -, hF, hbelow⟩ := h.reap_dropped
  obtain rfl := length_eq_zero_iff.1 hlen
  have hca : c.pml4 ∈ k.roots := mem_map_of_mem (by rw [hp]; simp)
  have hfa : f.pml4 ∈ k.roots := mem_map_of_mem (by rw [hp]; simp)
  have hcf : f.pml4 ≠ c.pml4 := by
    have hnd := h.shape.nodup
    unfold Kernel.roots at hnd
    rw [hp] at hnd
    simp only [nil_append, map_cons, map_nil, nodup_cons, mem_singleton] at hnd
    exact fun hx => hnd.1 hx.symm
  obtain ⟨hleaf, hchild⟩ := leaf_of_mem d.mem
  rw [heq]
  refine ⟨f, rfl, hz, ⟨⟨k.vm, h.shape.of_subset (nodup_singleton _) (fun a ha => mem_singleton.1 ha ▸ hfa), d.mem,
    d.kpml4, d.nframes⟩, fun p t hpath ht => ?_, ?_, fun v hv => ?_, hF, hbelow⟩, vmmFreeUserSpace_room h.shape hca hroom, h.halted⟩
  · simp only [hchild] at ht
    have hk := d.keeps (h.shape.tabHeld _ hfa p t hpath ht)
      (fun p' hp' ht' => hcf (h.shape.unshared _ _ p p' t hfa hca hpath hp' ht ht').1)
      (fun v hv e he hfr => h.shape.leafTab _ hca v hv e he _ hfa p hpath (hfr ▸ ht))
    exact ⟨hk.1, by rw [hk.2]; exact h.shape.tabRc _ hfa p t hpath ht⟩
  · simp only [d.kpml4]
    exact (d.keeps h.shape.kern (h.shape.kernTab _ hca) (h.shape.kernLeaf _ hca)).1
  · simp only [hleaf]
    exact h.leaf _ hfa v hv

theorem Sharing.reaps_stray {F m : Nat} : ∀ (n : Nat) {k : Kernel}, Sharing k F (n + 1) (n + 1) → Room k.vm.pmm m →
    let r := (run step k (Noxis.reaps (n + 1))).1
    ∃ f, r.procs = [f] ∧ f.zombie = false ∧ Stray r.vm f.pml4 F ∧ Room r.vm.pmm m ∧ r.halted = false
  | 0, k, h, hroom => by
    have hone : Noxis.reaps 1 = reapOne 0 := by simp only [Noxis.reaps, append_nil]
    rw [hone]
    exact h.stray hroom
  | n + 1, k, h, hroom => by
    have h1 := h.reap (by omega)
    rw [Nat.add_sub_cancel] at h1
    have hroom1 : Room (run step k (reapOne (n + 1))).1.vm.pmm m := by
      obtain ⟨c, cs, f, hp, -, -, -, heq, -⟩ := h.reap_dropped
      rw [heq]
      exact vmmFreeUserSpace_room h.shape (mem_map_of_mem (by rw [hp]; simp)) hroom
    rw [Noxis.reaps, run_append]
    exact Sharing.reaps_stray n h1 hroom1

/-! ## The exec -/

theorem vmmCreateAddressSpace_fst (s : Vm) : (vmmCreateAddressSpace s).1 = s.allocFrame.1 := by
  unfold vmmCreateAddressSpace
  simp only
  split
  · next h => exact h.symm
  · rfl

theorem storePhys_byte (s : Vm) {g o : Nat} (b : UInt8) (hg : g < 2 ^ 40) (ho : o < 4096) :
    s.storePhys ((g * 4096 + o) % 2 ^ 64) b = s.setByte g o b := by
  unfold Vm.storePhys
  rw [Nat.mod_eq_of_lt (by omega), show (g * 4096 + o) / 4096 = g by omega, show (g * 4096 + o) % 4096 = o by omega]

theorem storeAll_mem (g : Nat) : ∀ (stores : List (Nat × UInt8)) (s : Vm), g < 2 ^ 40 → (∀ p ∈ stores, p.1 < 4096) →
    (∀ f, f ≠ g → (storeAll g stores s).mem f = s.mem f) ∧ (storeAll g stores s).kpml4 = s.kpml4
  | [], _, _, _ => ⟨fun _ _ => rfl, rfl⟩
  | (o, b) :: stores, s, hg, hall => by
    obtain ⟨h1, h2⟩ := storeAll_mem g stores (s.storePhys ((g * 4096 + o) % 2 ^ 64) b) hg
      (fun p hp => hall p (mem_cons_of_mem _ hp))
    rw [storeAll]
    refine ⟨fun f hf => (h1 f hf).trans ?_, h2.trans rfl⟩
    rw [storePhys_byte s b hg (hall (o, b) mem_cons_self)]
    exact mem_setFrame_ne hf

/-- What building a new address space in `F` leaves of the rest: the frames in use keep their bytes and their counts. -/
structure Beside (s s' : Vm) (F : Nat) : Prop where
  mem : ∀ t, s.pmm.used t = true → s'.mem t = s.mem t
  held : ∀ t, s.pmm.Held t → s'.pmm.Held t ∧ s'.pmm.refcount t = s.pmm.refcount t
  new : s'.pmm.Held F ∧ s'.pmm.refcount F = 1
  kpml4 : s'.kpml4 = s.kpml4
  nframes : s'.pmm.nframes = s.pmm.nframes

theorem exec_beside {s : Vm} (hn : s.pmm.nframes ≤ MAX_FRAMES) (hkern : s.pmm.Held s.kpml4) {m : Nat}
    (hroom : Room s.pmm (m + 5)) : let r := vmmCreateAddressSpace s
    let c := mapNew r.2 r.1 USTACK_BASE
    r.1 = (pmmAllocFrame s.pmm).1 ∧ r.1 ≠ 0 ∧ c.2 ≠ 0 ∧ Beside s (storeAll c.2 (argvBlock []).1 c.1) r.1 ∧ Room c.1.pmm m := by
  dsimp only
  have hshape : Shape s [] := Ready.shape ⟨hn, hkern⟩
  have hr1 := vmmCreateAddressSpace_room (k := m + 4) hroom
  obtain ⟨h0, ht1, hs1, hempty⟩ := vmmCreateAddressSpace_spec hshape hr1.failed
  set w := vmmCreateAddressSpace s
  have hfst : w.1 = (pmmAllocFrame s.pmm).1 := vmmCreateAddressSpace_fst s
  generalize w.1 = F at *
  generalize w.2 = s1 at *
  have hr2 := Room.alloc (k := m + 3) hr1
  obtain ⟨hg0, ht2⟩ := took_alloc (s := s1) hr2.2.failed
  have hstack : USTACK_BASE / 4096 < userPages := by unfold userPages; decide
  have hmap : mapNew s1 F USTACK_BASE =
      ((vmmMapPageInto s1.allocFrame.2 F USTACK_BASE s1.allocFrame.1 (PAGE_RW ||| PAGE_USER)).1, s1.allocFrame.1) := by
    unfold mapNew
    simp only [if_neg hg0]
  have hr3 : Room (vmmMapPageInto s1.allocFrame.2 F USTACK_BASE s1.allocFrame.1 (PAGE_RW ||| PAGE_USER)).1.pmm m :=
    vmmMapPageInto_room hr2.2
  have hF : F ∈ [F] := mem_singleton.2 rfl
  have hs2 := ht2.shape hs1
  have hm := ht2.mapped hs1 hF hstack (by decide) (by decide) (vmmMapPageInto_true hr3.failed)
  rw [hmap]
  refine ⟨hfst, h0, hg0, ?_, hr3⟩
  have hempty2 : s1.allocFrame.2.child F 0 = none := hempty
  have hg : s1.allocFrame.1 < 2 ^ 40 := by
    have hlt := ht2.heldNew.lt
    rw [ht2.nframes, ht1.nframes] at hlt
    have : MAX_FRAMES ≤ 2 ^ 40 := by decide
    omega
  have hbound : ∀ p ∈ (argvBlock []).1, p.1 < 4096 := argvBlock_bound (by unfold ArgvFits; decide)
  obtain ⟨hst1, hst2⟩ := storeAll_mem s1.allocFrame.1 (argvBlock []).1
    (vmmMapPageInto s1.allocFrame.2 F USTACK_BASE s1.allocFrame.1 (PAGE_RW ||| PAGE_USER)).1 hg hbound
  simp only
  generalize (vmmMapPageInto s1.allocFrame.2 F USTACK_BASE s1.allocFrame.1 (PAGE_RW ||| PAGE_USER)).1 = s3 at *
  generalize s1.allocFrame.2 = s2 at *
  generalize s1.allocFrame.1 = g at *
  have hu1 : ∀ t, s.pmm.used t = true → s1.pmm.used t = true ∧ s1.pmm.refcount t = s.pmm.refcount t := fun t ht => by
    obtain ⟨h1, h2⟩ := ht1.pmm t (ht1.ne ht)
    exact ⟨h1.trans ht, h2⟩
  have hu2 : ∀ t, s1.pmm.used t = true → s2.pmm.used t = true ∧ s2.pmm.refcount t = s1.pmm.refcount t := fun t ht => by
    obtain ⟨h1, h2⟩ := ht2.pmm t (ht2.ne ht)
    exact ⟨h1.trans ht, h2⟩
  refine ⟨fun t ht => ?_, fun t ht => ?_, ?_, ?_, ?_⟩
  · have h1 := hu1 t ht
    have h2 := hu2 t h1.1
    rw [hst1 t (ht2.ne h1.1), hm.mem t h2.1 (fun p hp hx => ht1.ne ht (follow_of_empty hempty2 hp hx).2),
      ht2.mem t (ht2.ne h1.1), ht1.mem t (ht1.ne ht)]
  · rw [storeAll_pmm]
    have h1 := hu1 t ht.used
    have h2 := hu2 t h1.1
    refine ⟨hm.heldFrame (ht2.heldFrame (ht1.heldFrame ht)), ?_⟩
    rw [(hm.held t h2.1).2, h2.2, h1.2]
  · rw [storeAll_pmm]
    have h2 := hu2 F ht1.heldNew.used
    refine ⟨hm.heldFrame (ht2.heldFrame ht1.heldNew), ?_⟩
    rw [(hm.held F h2.1).2, h2.2, ht1.rcNew]
  · rw [hst2, hm.kpml4, ht2.kpml4, ht1.kpml4]
  · rw [storeAll_pmm, hm.nframes, ht2.nframes, ht1.nframes]

/-- **The exec of a process whose page is free**: the new PML4 is that page, and dropping the old address space frees it. -/
theorem exec_stray {k : Kernel} {f : Process} {F m : Nat} (hp : k.procs = [f]) (h : Stray k.vm f.pml4 F)
    (hroom : Room k.vm.pmm (m + 5)) : ∃ v, sysExec k 0 f (some bareImage) [] =
      ({ k with vm := v, procs := [{ f with pml4 := F, stackLow := USTACK_BASE, brk := 0 }] }, .value 0) ∧
      F ≠ 0 ∧ F ∈ freeList v f.pml4 ∧ v.pmm.used F = false ∧ v.pmm.failed = false := by
  obtain ⟨s0, hs0, hmem0, hk0, hn0⟩ := h.shape
  obtain ⟨hleaf0, hchild0⟩ := leaf_of_mem hmem0
  have ha : f.pml4 ∈ [f.pml4] := mem_singleton.2 rfl
  obtain ⟨hd, hd0, hg0, hb, hr⟩ := exec_beside (by rw [hn0]; exact hs0.nframes) h.kern hroom
  have hF : (pmmAllocFrame k.vm.pmm).1 = F := pmmAllocFrame_of_least _ h.free.1 (by rw [h.free.2.2]; rfl) h.first
  rw [hF] at hd
  rw [hd] at hd0 hg0 hb hr
  have heq : sysExec k 0 f (some bareImage) [] = ({ k with
      vm := vmmFreeUserSpace (storeAll (mapNew (vmmCreateAddressSpace k.vm).2 F USTACK_BASE).2 (argvBlock []).1
        (mapNew (vmmCreateAddressSpace k.vm).2 F USTACK_BASE).1) f.pml4
      procs := [{ f with pml4 := F, stackLow := USTACK_BASE, brk := 0 }] }, .value 0) := by
    unfold sysExec
    simp only [bareImage_load, hd, if_neg hd0, if_neg hg0, hp, set_cons_zero, one_ne_zero, if_false]
  have hfail : (storeAll (mapNew (vmmCreateAddressSpace k.vm).2 F USTACK_BASE).2 (argvBlock []).1
      (mapNew (vmmCreateAddressSpace k.vm).2 F USTACK_BASE).1).pmm.failed = false := by
    rw [storeAll_pmm]
    exact hr.failed
  generalize storeAll _ _ _ = v at hb heq hfail
  -- the old address space still stands beside the new one, with its page on the new PML4
  have hleafF : ∀ w < userPages, ∀ e, s0.leaf f.pml4 w = some e → e.frame = F := fun w hw e he => by
    have hl := h.leaf w hw
    rw [hleaf0, he, Option.map_some] at hl
    split at hl
    · exact Option.some.inj hl
    · cases hl
  have hshape : Shape v [f.pml4] := by
    refine hs0.of_frame (fun a haR p t hpath ht => ?_) (hb.kpml4.trans hk0) (hb.nframes.trans hn0) (fun a haR p t hpath ht => ?_)
      (fun a haR w hw e he => ?_) ?_
    · rw [mem_singleton.1 haR, ← hchild0] at ht
      rw [hb.mem t (h.held p t hpath ht).1.used, hmem0]
    · rw [mem_singleton.1 haR, ← hchild0] at ht
      obtain ⟨h1, h2⟩ := h.held p t hpath ht
      obtain ⟨h3, h4⟩ := hb.held t h1
      exact ⟨h3, h4.trans h2⟩
    · rw [mem_singleton.1 haR] at he
      rw [hleafF w hw e he]
      exact hb.new.1
    · rw [← hk0]
      exact (hb.held _ h.kern).1
  have hleafv : ∀ w < userPages, (v.leaf f.pml4 w).map Pte.frame = if w = stackPage then some F else none := fun w hw => by
    have hl : v.leaf f.pml4 w = s0.leaf f.pml4 w := Shape.leaf_of_tabs (R := [f.pml4]) (s := s0) (fun a haR p t hpath ht => by
      rw [mem_singleton.1 haR, ← hchild0] at ht
      rw [hb.mem t (h.held p t hpath ht).1.used, hmem0]) ha w
    rw [hl, ← hleaf0]
    exact h.leaf w hw
  have hcount := leafCount_of_one hleafv F
  rw [if_pos rfl] at hcount
  have hnt : ∀ p, TabPath p → follow v.child f.pml4 p ≠ some F := by
    have hl := hleafv stackPage stackPage_lt
    rw [if_pos rfl] at hl
    obtain ⟨e, he, hfr⟩ := Option.map_eq_some_iff.1 hl
    exact fun p hpath ht => hshape.leafTab _ ha stackPage stackPage_lt e he _ ha p hpath (hfr.symm ▸ ht)
  have d := vmmFreeUserSpace_dropped hshape ha
  refine ⟨_, heq, hd0, ?_, ?_, ?_⟩
  · rw [freeList_of_mem d.mem]
    refine count_pos_iff.1 ?_
    rw [count_freeList hshape ha hnt, hcount]
    exact Nat.one_pos
  · have hrc := d.rc F hb.new.1 hnt
    rw [hcount, hb.new.2] at hrc
    rw [hrc.2.2]
    rfl
  · rw [d.failed]
    exact hfail

/-! ## Schedules -/

namespace Tied

variable {m : Cpu} {hb : Nat} {q all : List Nat}

theorem step_yield (hh : m.k.halted = false) : m.step .yield = (m.yield, ⟨[], []⟩) := by
  unfold Cpu.step
  rw [if_neg (by rw [hh]; decide)]

/-- **Yields bring any waiting process to the processor** and change nothing else. -/
theorem bring : ∀ (l1 : List Nat) {m : Cpu} {a : Nat} {l2 : List Nat}, Tied m hb (l1 ++ a :: l2) all → m.k.halted = false →
    ∃ acts, (∃ q', Tied (run Cpu.step m acts).1 hb q' all) ∧ (run Cpu.step m acts).1.sched.current = a ∧
      (run Cpu.step m acts).1.k = m.k ∧ Always Cpu.step (fun x => x.k = m.k) m acts
  | [], m, a, l2, h, hh => by
    obtain ⟨hr, hcur, hz⟩ := h.rep.yield_spec
    have hy : run Cpu.step m [.yield] = (m.yield, [⟨[], []⟩]) := by rw [run_cons, step_yield hh]; rfl
    refine ⟨[.yield], ?_⟩
    rw [hy]
    refine ⟨⟨_, h.switch hr (Sched.yield_kept _) hz⟩, hcur, rfl, cons rfl (nil ?_)⟩
    rw [step_yield hh]
    rfl
  | n :: l1, m, a, l2, h, hh => by
    rw [cons_append] at h
    obtain ⟨hr, -, hz⟩ := h.rep.yield_spec
    have ht : Tied m.yield hb (l1 ++ a :: (l2 ++ [m.sched.current])) all := by
      have := h.switch hr (Sched.yield_kept _) hz
      rwa [append_assoc, cons_append] at this
    obtain ⟨acts, h1, h2, h3, h4⟩ := bring l1 ht hh
    refine ⟨.yield :: acts, ?_⟩
    rw [run_cons, step_yield hh]
    refine ⟨h1, h2, h3, cons rfl ?_⟩
    rw [step_yield hh]
    exact h4

theorem running_eq (h : Tied m hb q all) {i : Nat} {cur : Process} (hi : m.k.procs[i]? = some cur)
    (hc : cur.addr = m.sched.current) : m.running = some (i, cur) := by
  have hf : m.k.procs.findIdx? (fun p => p.addr == m.sched.current) = some i := by
    obtain ⟨hlt, hget⟩ := List.getElem?_eq_some_iff.1 hi
    refine List.findIdx?_eq_some_iff_getElem.2 ⟨hlt, by rw [hget, hc]; simp, fun j hj hx => ?_⟩
    set r := m.k.procs.map Process.addr
    have hnd : r.Nodup := by
      have := h.addrs
      unfold Kernel.keys at this
      rwa [map_map] at this
    have hjlt : j < m.k.procs.length := by omega
    have heq : m.k.procs[j].addr = m.k.procs[i].addr := by
      rw [hget, hc]
      simpa using hx
    have hij : j = i := by
      have hj' : j < r.length := by rw [length_map]; exact hjlt
      have hi' : i < r.length := by rw [length_map]; exact hlt
      have hmap : r[j] = r[i] := by
        rw [getElem_map, getElem_map]
        exact heq
      exact hnd.getElem_inj_iff.1 hmap
    omega
  unfold Cpu.running
  rw [hf, Option.bind_some, hi, Option.map_some]

/-- What the processor does for a call that allocates no process. -/
def actOf : Call → Option Cpu.Act
  | .fork _ => none
  | .exec prog argv => some (.exec prog argv)
  | .exit code => some (.exit code)
  | .waitpid pid status => some (.waitpid pid status)
  | .access va w => some (.access va w)

theorem step_call (hh : m.k.halted = false) {i : Nat} {cur : Process} (hi : m.k.procs[i]? = some cur) (hz : cur.zombie = false)
    (hr : m.running = some (i, cur)) {c : Call} {a : Cpu.Act} (ha : actOf c = some a) :
    (m.step a).1.k = (m.k.step (i, c)).1 := by
  rw [step_eq hh hi hz]
  unfold Cpu.step
  rw [if_neg (by rw [hh]; decide), hr]
  cases c with
  | fork addr => cases ha
  | exec prog argv =>
    cases ha
    show (m.exec i cur prog argv).1.k = _
    unfold Cpu.exec
    simp only
    split <;> rfl
  | exit code => cases ha; rfl
  | waitpid pid status =>
    cases ha
    exact Loaded.waitpid_k hi hz pid status
  | access va w => cases ha; rfl

/-- **A call of any process is made in some run of the processor.** -/
theorem lift_step (h : Tied m hb q all) (c : Nat × Call) (hc : (actOf c.2).isSome) :
    ∃ acts, (∃ q' all', Tied (run Cpu.step m acts).1 hb q' all') ∧ (run Cpu.step m acts).1.k = (m.k.step c).1 ∧
      Always Cpu.step (fun x => x.k = m.k ∨ x.k = (m.k.step c).1) m acts := by
  obtain ⟨i, c⟩ := c
  have hidle : m.k.step (i, c) = (m.k, (m.k.step (i, c)).2) → _ := fun hs =>
    (⟨[], ⟨q, all, h⟩, by rw [hs]; rfl, nil (.inl rfl)⟩ : ∃ acts,
      (∃ q' all', Tied (run Cpu.step m acts).1 hb q' all') ∧ (run Cpu.step m acts).1.k = (m.k.step (i, c)).1 ∧
        Always Cpu.step (fun x => x.k = m.k ∨ x.k = (m.k.step (i, c)).1) m acts)
  cases hh : m.k.halted with
  | true => exact hidle (by unfold Kernel.step; rw [if_pos hh])
  | false =>
    cases hi : m.k.procs[i]? with
    | none => exact hidle (by unfold Kernel.step; rw [if_neg (by rw [hh]; decide)]; simp only [hi])
    | some cur =>
      cases hz : cur.zombie with
      | true => exact hidle (by unfold Kernel.step; rw [if_neg (by rw [hh]; decide)]; simp only [hi, hz, if_true])
      | false =>
        obtain ⟨a, ha⟩ := Option.isSome_iff_exists.1 hc
        have hkey := mem_keys (mem_of_getElem? hi)
        have hrun : cur.addr ∈ m.sched.current :: q := by
          refine (h.rep.mem _).2 (.inr ⟨(h.listed _).2 (.inr (mem_map_of_mem hkey)), fun hx => ?_⟩)
          have hzz : cur.zombie = true := (h.zombie _ hkey).2 hx
          rw [hz] at hzz
          cases hzz
        -- bring it to the processor, if it is not there
        obtain ⟨acts, ⟨q1, h1⟩, hcur, hk, hal⟩ : ∃ acts, (∃ q', Tied (run Cpu.step m acts).1 hb q' all) ∧
            (run Cpu.step m acts).1.sched.current = cur.addr ∧ (run Cpu.step m acts).1.k = m.k ∧
            Always Cpu.step (fun x => x.k = m.k) m acts := by
          rcases mem_cons.1 hrun with hx | hx
          · exact ⟨[], ⟨q, h⟩, hx.symm, rfl, nil rfl⟩
          · obtain ⟨l1, l2, rfl⟩ := append_of_mem hx
            exact bring l1 h hh
        have hstep := step_call (m := (run Cpu.step m acts).1) (by rw [hk]; exact hh) (by rw [hk]; exact hi) hz
          (h1.running_eq (by rw [hk]; exact hi) hcur.symm) ha
        obtain ⟨q2, all2, h2⟩ := h1.step a
        rw [hk] at hstep
        refine ⟨acts ++ [a], ?_⟩
        rw [run_append]
        exact ⟨⟨q2, all2, h2⟩, hstep, append (fun pre hpre => .inl (hal pre hpre)) (cons (.inl hk) (nil (.inr hstep)))⟩

theorem lift : ∀ (calls : List (Nat × Call)) {m : Cpu} {q all : List Nat}, Tied m hb q all →
    (∀ c ∈ calls, (actOf c.2).isSome) → ∃ acts, (∃ q' all', Tied (run Cpu.step m acts).1 hb q' all') ∧
      (run Cpu.step m acts).1.k = (run Kernel.step m.k calls).1 ∧
      ∀ P : Kernel → Prop, Always Kernel.step P m.k calls → Always Cpu.step (fun x => P x.k) m acts
  | [], m, q, all, h, _ => ⟨[], ⟨q, all, h⟩, rfl, fun P hP => nil hP.head⟩
  | c :: calls, m, q, all, h, hc => by
    obtain ⟨acts1, ⟨q1, all1, h1⟩, hk1, hal1⟩ := h.lift_step c (hc c mem_cons_self)
    obtain ⟨acts2, h2, hk2, hal2⟩ := lift calls h1 (fun c hc' => hc c (mem_cons_of_mem _ hc'))
    rw [hk1] at hk2 hal2
    refine ⟨acts1 ++ acts2, ?_⟩
    rw [run_append]
    refine ⟨h2, hk2, fun P hP => append (fun pre hpre => ?_) (hal2 P hP.tail)⟩
    rcases hal1 pre hpre with hx | hx
    · rw [hx]
      exact hP.head
    · rw [hx]
      exact hP.tail.head

end Tied

/-! ## From boot -/

def bareCpu : Cpu := Cpu.boot startVm bareImage 0x1000 0x1800 0x100000 0x100001

def forkActs : Nat → List Cpu.Act
  | 0 => []
  | n + 1 => forkActs n ++ [.fork (0x2000 + n) (0x100002 + n)]

theorem bareCpu_k : bareCpu.k = { Noxis.boot startVm bareImage 0x1000 with nextPid := 3 } := by
  unfold bareCpu Cpu.boot Cpu.spawned
  generalize Noxis.boot startVm bareImage 0x1000 = k
  rfl

theorem bareCpu_sharing : ∃ F ≠ 0, Sharing bareCpu.k F 1 0 ∧ Room bareCpu.k.vm.pmm 3570 := by
  obtain ⟨F, hF, h, hroom⟩ := boot_sharing
  rw [bareCpu_k]
  generalize Noxis.boot startVm bareImage 0x1000 = k at *
  exact ⟨F, hF, ⟨h.halted, h.failed, h.procs, h.shape, h.leaf, h.rc, h.le, h.below⟩, hroom⟩

theorem bareCpu_loaded : ∃ q all, Loaded bareCpu 0x1800 q all := by
  obtain ⟨F, -, h, -⟩ := bareCpu_sharing
  have hf := h.failed
  unfold bareCpu at hf ⊢
  exact Loaded.boot startVm_ready bareImage_under (by decide) hf

/-- The shell at the processor after `n` forks, with the blocks that are in use. -/
structure Forked (m : Cpu) (n : Nat) : Prop where
  tied : ∃ q all, Tied m 0x1800 q all
  kernel : m.k = (run Kernel.step bareCpu.k (forks n)).1
  current : m.sched.current = 0x1000
  first : ∃ cs f, m.k.procs = cs ++ [f] ∧ cs.length = n ∧ f.addr = 0x1000
  structs : ∀ a ∈ m.sched.structs, a < 0x2000 + n
  blocks : ∀ b ∈ m.stackBlocks, 0x100000 ≤ b ∧ b < 0x100002 + n

theorem bareCpu_forked : Forked bareCpu 0 := by
  obtain ⟨q, all, h⟩ := bareCpu_loaded
  have hsp := Sched.spawned_rep 0x1000 0x1800 (by decide) (by decide) (by decide)
  have hsched : bareCpu.sched = (Sched.spawned 0x1000 0x1800).schedulerYield := rfl
  have hblk : bareCpu.stackBlocks = {0x100000, 0x100001} := rfl
  refine ⟨⟨q, all, h.toTied⟩, rfl, ?_, ?_, fun a ha => ?_, fun b hb => ?_⟩
  · rw [hsched]
    exact hsp.1.yield_spec.2.1
  · rw [bareCpu_k]
    exact ⟨[], _, rfl, rfl, rfl⟩
  · rw [hsched, (Sched.yield_kept _).structs, hsp.2.2.1] at ha
    simp only [Finset.mem_insert, Finset.mem_singleton] at ha
    unfold idle at ha
    omega
  · rw [hblk] at hb
    simp only [Finset.mem_insert, Finset.mem_singleton] at hb
    omega

theorem Forked.fork {m : Cpu} {n : Nat} (h : Forked m n) (hn : n < 255)
    (hok : ∀ j ≤ 255, ∃ F r, Sharing (run Kernel.step bareCpu.k (forks j)).1 F r j) :
    Forked (m.step (.fork (0x2000 + n) (0x100002 + n))).1 (n + 1) := by
  obtain ⟨q, all, ht⟩ := h.tied
  obtain ⟨cs, f, hp, hlen, haddr⟩ := h.first
  obtain ⟨F, r, hsh⟩ := hok n (by omega)
  obtain ⟨F', r', hsh'⟩ := hok (n + 1) (by omega)
  rw [← h.kernel] at hsh
  have hi : m.k.procs[n]? = some f := by
    rw [hp, getElem?_append_right (by omega), hlen, Nat.sub_self]
    rfl
  have hz : f.zombie = false := by
    obtain ⟨f', hi', hz'⟩ := hsh.first
    rw [hi] at hi'
    rw [Option.some.inj hi']
    exact hz'
  have hrun := ht.running_eq hi (haddr.trans h.current.symm)
  have hfresh : m.fresh (0x2000 + n) (0x100002 + n) = true := by
    have hs := h.structs
    have hb := h.blocks
    unfold Cpu.fresh
    simp only [Bool.and_eq_true, bne_iff_ne, ne_eq, Bool.not_eq_true', decide_eq_false_iff_not, Finset.mem_union, not_or]
    refine ⟨⟨by omega, fun hx => ?_, fun hx => ?_⟩, fun hx => ?_, fun hx => ?_⟩
    · have := hs _ hx
      omega
    · have := hb _ hx
      omega
    · have := hs _ hx
      omega
    · have := hb _ hx
      omega
  have hstep : (m.step (.fork (0x2000 + n) (0x100002 + n))).1 = m.fork f (0x2000 + n) (0x100002 + n) := by
    unfold Cpu.step
    rw [if_neg (by rw [hsh.halted]; decide), hrun]
    simp only [Cpu.call, hfresh, or_true, if_true]
  have hkstep : (run Kernel.step bareCpu.k (forks (n + 1))).1 = (sysFork m.k f (0x2000 + n)).1 := by
    rw [forks, run_append, ← h.kernel]
    show (m.k.step (n, .fork (0x2000 + n))).1 = _
    rw [step_eq hsh.halted hi hz]
    rfl
  have hnew : (sysFork m.k f (0x2000 + n)).1.nextPid ≠ m.k.nextPid ∧
      ∃ cs' f', (sysFork m.k f (0x2000 + n)).1.procs = cs' ++ [f'] ∧ cs'.length = n + 1 := by
    obtain ⟨cs', f', hp', hlen', -⟩ := hsh'.procs
    rw [hkstep] at hp'
    refine ⟨fun hx => ?_, cs', f', hp', hlen'⟩
    rcases sysFork_keys m.k f (0x2000 + n) with ⟨-, hk⟩ | ⟨hn', -⟩
    · have hl := congrArg length hk
      unfold Kernel.keys at hl
      rw [length_map, length_map, hp', hp, length_append, length_append, hlen', hlen] at hl
      simp at hl
    · omega
  have hfork : m.fork f (0x2000 + n) (0x100002 + n) = { m with
      k := (sysFork m.k f (0x2000 + n)).1
      sched := (m.sched.procAlloc (0x2000 + n) (some m.sched.current) true).schedulerRegister (0x2000 + n)
      kstack := Function.update m.kstack (0x2000 + n) (0x100002 + n)
      stackBlocks := insert (0x100002 + n) m.stackBlocks } := by
    unfold Cpu.fork
    simp only [if_neg hnew.1]
  have hreg := Sched.register_kept m.sched (0x2000 + n) (some m.sched.current) true
  refine ⟨ht.step _, ?_, ?_, ?_, ?_, ?_⟩
  · rw [hstep, hfork, hkstep]
  · rw [hstep, hfork]
    exact hreg.current.trans h.current
  · rw [hstep, hfork]
    have hprocs : ∃ x, (sysFork m.k f (0x2000 + n)).1.procs = x :: m.k.procs ∨
        (sysFork m.k f (0x2000 + n)).1.procs = m.k.procs := by
      unfold sysFork
      simp only
      split
      · exact ⟨f, .inr rfl⟩
      split
      · exact ⟨f, .inr rfl⟩
      · split
        · exact ⟨f, .inr rfl⟩
        · exact ⟨_, .inl rfl⟩
    obtain ⟨-, cs', f', hp', hlen'⟩ := hnew
    obtain ⟨x, hx | hx⟩ := hprocs
    · exact ⟨x :: cs, f, by simp only [hx, hp, cons_append], by rw [length_cons, hlen], haddr⟩
    · have hl := congrArg length (hx.symm.trans hp')
      rw [hp, length_append, length_append, hlen, hlen'] at hl
      simp at hl
  · rw [hstep, hfork]
    intro a ha
    simp only [hreg.structs, Finset.mem_insert] at ha
    rcases ha with rfl | ha
    · omega
    · have := h.structs a ha
      omega
  · rw [hstep, hfork]
    intro b hb
    simp only [Finset.mem_insert] at hb
    rcases hb with rfl | hb
    · omega
    · have := h.blocks b hb
      omega

theorem forkActs_forked (hok : ∀ j ≤ 255, ∃ F r, Sharing (run step bareCpu.k (forks j)).1 F r j) : ∀ n ≤ 255,
    Forked (run Cpu.step bareCpu (forkActs n)).1 n ∧ Always Cpu.step (fun m => m.k.vm.pmm.failed = false) bareCpu (forkActs n)
  | 0, _ => ⟨bareCpu_forked, by
    obtain ⟨F, r, h⟩ := hok 0 (by omega)
    exact nil h.failed⟩
  | n + 1, hn => by
    obtain ⟨h, hal⟩ := forkActs_forked hok n (by omega)
    have h' := h.fork (by omega) hok
    have hfail : ∀ {m : Cpu} {j : Nat}, j ≤ 255 → Forked m j → m.k.vm.pmm.failed = false := fun hj hm => by
      obtain ⟨F, r, hs⟩ := hok _ hj
      rw [hm.kernel]
      exact hs.failed
    rw [forkActs, run_append]
    exact ⟨h', hal.append (cons (hfail (by omega) h) (nil (hfail hn h')))⟩

theorem reaps_actOf : ∀ (n : Nat), ∀ c ∈ reaps n, (Tied.actOf c.2).isSome
  | 0, _, hc => by cases hc
  | n + 1, c, hc => by
    rw [reaps, mem_append] at hc
    rcases hc with hc | hc
    · unfold Sharing.reapOne at hc
      rw [mem_cons, mem_singleton] at hc
      rcases hc with rfl | rfl <;> rfl
    · exact reaps_actOf n c hc

/-- **The PML4 in CR3 is free memory.**  The shell forks 255 times, reaps its children and execs: the exec builds the new
address space in the frame of the old stack page, and releases that frame with the old address space, so the step releases
the PML4 of the running process. -/
theorem exec_frees_loaded_pml4 : Ready startVm ∧ Under bareImage ∧ ∃ acts,
    Always Cpu.step (fun m => m.k.vm.pmm.failed = false) bareCpu (acts ++ [.exec (some bareImage) []]) ∧
    ∀ m, m = (run Cpu.step bareCpu acts).1 → ∀ m' r, m.step (.exec (some bareImage) []) = (m', r) →
      ¬ m'.Live r ∧ m'.cr3 = m'.pml4Of m'.sched.current ∧ m'.k.vm.pmm.used m'.cr3 = false := by
  refine ⟨startVm_ready, bareImage_under, ?_⟩
  obtain ⟨F, -, hsh, hroom⟩ := bareCpu_sharing
  have hforks : ∀ j ≤ 255, Sharing (run Kernel.step bareCpu.k (forks j)).1 F (min 255 (j + 1)) j ∧
      Room (run Kernel.step bareCpu.k (forks j)).1.vm.pmm 2550 := fun j hj => by
    obtain ⟨h1, h2, -⟩ := hsh.forks j 2550 (hroom.mono (by omega))
    exact ⟨h1, h2⟩
  obtain ⟨hf, halF⟩ := forkActs_forked (fun j hj => ⟨F, _, (hforks j hj).1⟩) 255 (le_refl _)
  obtain ⟨q, all, ht⟩ := hf.tied
  obtain ⟨f, hprocs, hz, hstray, hroom', hh⟩ := Sharing.reaps_stray 254 (hforks 255 (le_refl _)).1 (hforks 255 (le_refl _)).2
  obtain ⟨-, halR⟩ := Sharing.reaps 254 (hforks 255 (le_refl _)).1
  rw [← hf.kernel] at hprocs hstray hroom' hh halR
  -- the reaps, then the shell at the processor
  obtain ⟨acts, ⟨q1, all1, h1⟩, hk1, hal1⟩ := ht.lift (reaps (254 + 1)) (reaps_actOf (254 + 1))
  rw [← hk1] at hprocs hstray hroom' hh
  generalize hm1 : (run Cpu.step (run Cpu.step bareCpu (forkActs 255)).1 acts).1 = m1 at *
  have hkey : (f.addr, false) ∈ m1.k.keys := by
    unfold Kernel.keys
    rw [hprocs, map_singleton, mem_singleton]
    unfold Process.key
    rw [hz]
  have hmem : f.addr ∈ m1.sched.current :: q1 := by
    refine (h1.rep.mem _).2 (.inr ⟨(h1.listed _).2 (.inr (mem_map_of_mem hkey)), fun hx => ?_⟩)
    exact Bool.false_ne_true ((h1.zombie _ hkey).2 hx)
  obtain ⟨acts2, ⟨q2, h2⟩, hcur, hk2, hal2⟩ : ∃ acts2, (∃ q', Tied (run Cpu.step m1 acts2).1 0x1800 q' all1) ∧
      (run Cpu.step m1 acts2).1.sched.current = f.addr ∧ (run Cpu.step m1 acts2).1.k = m1.k ∧
      Always Cpu.step (fun x => x.k = m1.k) m1 acts2 := by
    rcases mem_cons.1 hmem with hx | hx
    · exact ⟨[], ⟨q1, h1⟩, hx.symm, rfl, nil rfl⟩
    · obtain ⟨l1, l2, rfl⟩ := append_of_mem hx
      exact Tied.bring l1 h1 hh
  generalize hm2 : (run Cpu.step m1 acts2).1 = m2 at *
  rw [← hk2] at hprocs hstray hroom' hh
  obtain ⟨v, heq, hF0, hfree, hused, hfail⟩ := exec_stray (m := 2545) hprocs hstray hroom'
  have hi : m2.k.procs[0]? = some f := by rw [hprocs]; rfl
  have hrun := h2.running_eq hi hcur.symm
  have hstep : m2.step (.exec (some bareImage) []) = m2.exec 0 f (some bareImage) [] := by
    unfold Cpu.step
    rw [if_neg (by rw [hh]; decide), hrun]
    rfl
  have hexec : m2.exec 0 f (some bareImage) [] =
      ({ m2 with k := { m2.k with vm := v, procs := [{ f with pml4 := F, stackLow := USTACK_BASE, brk := 0 }] }
                 cr3 := F }, ⟨[f.pml4], []⟩) := by
    unfold Cpu.exec
    simp only [heq, if_true]
    unfold Cpu.pml4Of
    simp only [hcur, find?_cons, beq_self_eq_true]
  have hpml4 : ({ m2 with k := { m2.k with vm := v, procs := [{ f with pml4 := F, stackLow := USTACK_BASE, brk := 0 }] }
                          cr3 := F } : Cpu).pml4Of m2.sched.current = F := by
    unfold Cpu.pml4Of
    simp only [hcur, find?_cons, beq_self_eq_true]
  have hfinal : (run Cpu.step bareCpu (forkActs 255 ++ (acts ++ acts2))).1 = m2 := by
    rw [run_append, run_append, hm1, hm2]
  refine ⟨forkActs 255 ++ (acts ++ acts2), ?_, ?_⟩
  · rw [append_assoc, append_assoc]
    refine halF.append (append (hal1 (fun k => k.vm.pmm.failed = false) halR) ?_)
    rw [hm1]
    refine append (fun pre hpre => ?_) ?_
    · simp only [hal2 pre hpre, ← hk2]
      exact hroom'.failed
    · rw [hm2]
      refine cons hroom'.failed (nil ?_)
      rw [hstep, hexec]
      exact hfail
  · intro m hm m' r hr
    rw [hfinal] at hm
    rw [hm, hstep, hexec] at hr
    obtain ⟨rfl, rfl⟩ := Prod.mk.inj hr
    refine ⟨fun hl => ?_, hpml4.symm, hused⟩
    obtain ⟨q3, -, hlive⟩ := hl
    have htab := ((hlive m2.sched.current mem_cons_self).1 f.pml4 (mem_singleton.2 rfl)).2
    rw [hpml4] at htab
    exact htab hF0 [] F tabPath_nil rfl hfree

/-- The shell forks one child. -/
theorem loaded_space_live_one_fork : [idle, 0x1000, 0x1800, 0x100000, 0x100001].Nodup ∧
    (run Cpu.step (Cpu.boot startVm bareImage 0x1000 0x1800 0x100000 0x100001) (forkActs 1)).1.cr3 =
      (run Cpu.step (Cpu.boot startVm bareImage 0x1000 0x1800 0x100000 0x100001) (forkActs 1)).1.rootOf
        (run Cpu.step (Cpu.boot startVm bareImage 0x1000 0x1800 0x100000 0x100001) (forkActs 1)).1.sched.current := by
  obtain ⟨F, -, hsh, hroom⟩ := bareCpu_sharing
  have hforks : ∀ j ≤ 255, ∃ F r, Sharing (run Kernel.step bareCpu.k (forks j)).1 F r j := fun j hj =>
    ⟨F, _, (hsh.forks j 2550 (hroom.mono (by omega))).1⟩
  refine ⟨by decide, (loaded_space_live startVm startVm_ready bareImage bareImage_under 0x1000 0x1800 0x100000 0x100001 (by decide)
    (forkActs 1) (forkActs_forked hforks 1 (by omega)).2 (splits_cons.2 ⟨?_, splits_nil⟩)).1 (forkActs 1) (prefix_refl _) _ rfl⟩
  intro i cur c hr hc
  obtain rfl : Call.fork 0x2000 = c := Option.some.inj hc
  intro cur' hi g
  obtain ⟨cs, f, hprocs, hlen, -⟩ := hsh.procs
  obtain rfl := length_eq_zero_iff.1 hlen
  have hroots : bareCpu.k.roots = [f.pml4] := by
    unfold Kernel.roots
    rw [hprocs]
    rfl
  have hone := leafCount_le_one hsh.shape (mem_kernelRoots hi) g
  have hone' := leafCount_le_one hsh.shape (a := f.pml4) (by rw [hroots]; exact mem_singleton.2 rfl) g
  show mapCount bareCpu.k.vm bareCpu.k.roots g + leafCount bareCpu.k.vm cur'.pml4 g ≤ 255
  rw [hroots, mapCount_cons]
  have hnil : mapCount bareCpu.k.vm [] g = 0 := rfl
  omega

end Noxis
