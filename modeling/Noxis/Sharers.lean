import Noxis.Process
/-!
# Sharers — what the saturating counter does to the 256th sharer

`Sharing k F r n` describes a first process with `n` children that all map the one frame `F`, whose count is `r`.  A fork
goes from `r` to `min 255 (r + 1)` (`Sharing.fork`), a reap from `r` to `r - 1` (`Sharing.reap`): the two do not cancel once
255 has been reached, so after 255 forks and 255 reaps the count is 0 while the first process still maps the frame, and
`pmm_alloc_frame` hands it out again (`recycled_while_mapped`).
-/
namespace Noxis

open List Radix Kernel Option Always

def stackPage : Nat := USTACK_BASE / 4096

/-- The first process and `n` children, all on the frame `F`; the children's tables lie above it. -/
structure Sharing (k : Kernel) (F r n : Nat) : Prop where
  halted : k.halted = false
  failed : k.vm.pmm.failed = false
  procs : ∃ cs first, k.procs = cs ++ [first] ∧ cs.length = n ∧ first.zombie = false ∧
    ∀ c ∈ cs, c.zombie = false ∧ c.parent = first.addr ∧
      ∀ p t, TabPath p → follow k.vm.child c.pml4 p = some t → F < t
  shape : Shape k.vm k.roots
  leaf : ∀ a ∈ k.roots, ∀ v < userPages, (k.vm.leaf a v).map Pte.frame = if v = stackPage then some F else none
  rc : k.vm.pmm.refcount F = r
  le : r ≤ 255
  below : ∀ g < F, k.vm.pmm.used g = true

theorem stackPage_lt : stackPage < userPages := by unfold userPages; decide

theorem leafCount_of_one {s : Vm} {a F : Nat}
    (h : ∀ v < userPages, (s.leaf a v).map Pte.frame = if v = stackPage then some F else none) (f : Nat) :
    leafCount s a f = if f = F then 1 else 0 := by
  unfold leafCount
  rw [Finset.sum_eq_single_of_mem stackPage (Finset.mem_range.2 stackPage_lt)]
  · unfold pointsTo
    rw [h _ stackPage_lt, if_pos rfl]
    by_cases hf : f = F
    · rw [if_pos hf, if_pos (by rw [hf])]
    · rw [if_neg hf, if_neg (fun hx => hf (some.inj hx).symm)]
  · intro v hv hne
    unfold pointsTo
    rw [h v (Finset.mem_range.1 hv), if_neg hne]
    rfl

theorem step_eq {k : Kernel} (hh : k.halted = false) {i : Nat} {cur : Process} (hi : k.procs[i]? = some cur)
    (hz : cur.zombie = false) (c : Call) : k.step (i, c) = k.call i cur c := by
  unfold step
  simp only [hh, hi, hz, Bool.false_eq_true, if_false]

theorem sysFork_room {k : Kernel} (h : Shape k.vm k.roots) {i : Nat} {cur : Process} (hi : k.procs[i]? = some cur) (addr : Nat)
    {m : Nat} (hroom : Room k.vm.pmm (m + 3 * pagesFrom k.vm cur.pml4 0 + 1)) : Room (sysFork k cur addr).1.vm.pmm m := by
  have ha := mem_kernelRoots hi
  have hr1 := vmmCreateAddressSpace_room hroom
  obtain ⟨h0, htook, hshape, hempty⟩ := vmmCreateAddressSpace_spec h hr1.failed
  unfold sysFork
  simp only
  rw [if_neg h0]
  generalize (vmmCreateAddressSpace k.vm).1 = d at *
  generalize (vmmCreateAddressSpace k.vm).2 = s1 at *
  have had : cur.pml4 ≠ d := fun hx => (nodup_cons.1 hshape.nodup).1 (hx ▸ ha)
  have hpages : pagesFrom s1 cur.pml4 0 = pagesFrom k.vm cur.pml4 0 :=
    Finset.sum_congr rfl (fun v _ => by rw [htook.leaf h ha v])
  have hr2 : Room (vmmCowUserSpace s1 d cur.pml4).1.pmm m := vmmCowUserSpace_room hshape (mem_cons_of_mem _ ha)
    mem_cons_self had (fun v _ => leaf_of_empty hempty v) (by rw [hpages]; exact hr1)
  split
  next s heq => rw [heq] at hr2; exact hr2
  next s heq =>
    rw [heq] at hr2
    split <;> exact hr2

namespace Sharing

variable {k : Kernel} {F r n : Nat}

theorem first (h : Sharing k F r n) : ∃ first, k.procs[n]? = some first ∧ first.zombie = false := by
  obtain ⟨cs, f, hp, hlen, hz, -⟩ := h.procs
  refine ⟨f, ?_, hz⟩
  rw [hp, getElem?_append_right (by omega), hlen, Nat.sub_self]
  rfl

theorem held (h : Sharing k F r n) : k.vm.pmm.Held F := by
  obtain ⟨f, hi, -⟩ := h.first
  have ha := mem_kernelRoots hi
  have hl := h.leaf f.pml4 ha stackPage stackPage_lt
  rw [if_pos rfl] at hl
  obtain ⟨e, he, hfr⟩ := map_eq_some_iff.1 hl
  exact hfr ▸ h.shape.leafHeld f.pml4 ha stackPage stackPage_lt e he

/-- **One more sharer**, counted as long as the counter goes. -/
theorem fork (h : Sharing k F r n) {m : Nat} (addr : Nat) (haddr : addr ≠ 0) (hroom : Room k.vm.pmm (m + 4)) :
    Sharing (k.step (n, .fork addr)).1 F (min 255 (r + 1)) (n + 1) ∧ Room (k.step (n, .fork addr)).1.vm.pmm m := by
  obtain ⟨cs, f, hp, hlen, hz, hcs⟩ := h.procs
  have hi : k.procs[n]? = some f := by
    rw [hp, getElem?_append_right (by omega), hlen, Nat.sub_self]; rfl
  have ha := mem_kernelRoots hi
  have hone := h.leaf f.pml4 ha
  have hpages : pagesFrom k.vm f.pml4 0 ≤ 1 := pagesFrom_le_one (v := stackPage) (fun w hw hne => by
    have := hone w hw
    rw [if_neg hne] at this
    exact Option.map_eq_none_iff.1 this)
  have hr := sysFork_room h.shape hi addr (m := m) (hroom.mono (by omega))
  obtain ⟨s1, s2, d, htook, hshape, hempty, had, hcow, heq⟩ := sysFork_eq h.shape hi addr hr.failed
  rw [step_eq h.halted hi hz]
  show Sharing (sysFork k f addr).1 F _ _ ∧ Room (sysFork k f addr).1.vm.pmm m
  refine ⟨?_, hr⟩
  have hfail := hr.failed
  rw [heq, if_neg haddr] at hfail ⊢
  simp only at hfail
  have hheld1 := htook.heldFrame h.held
  have hFd : F < d := by
    by_contra hge
    rcases Nat.lt_or_eq_of_le (not_lt.1 hge) with hlt | rfl
    · exact absurd (h.below d hlt) (by rw [htook.unused]; decide)
    · exact absurd h.held.used (by rw [htook.unused]; decide)
  have hbelow1 : ∀ g < F, s1.pmm.used g = true := fun g hg => by
    rw [(htook.pmm g (by omega)).1]; exact h.below g hg
  have hsum : ∑ v ∈ Finset.range userPages, pointsTo (s1.leaf f.pml4 v) F = 1 := by
    have := leafCount_of_one (s := s1) (a := f.pml4) (F := F) (fun v hv => by rw [htook.leaf h.shape ha v]; exact hone v hv) F
    rw [if_pos rfl] at this
    exact this
  have hdem : ∀ v, ((k.vm.leaf f.pml4 v).map demote).map Pte.frame = (k.vm.leaf f.pml4 v).map Pte.frame := fun v => by
    rw [Option.map_map]; rfl
  have hroots : ∀ c ∈ cs, c.pml4 ∈ k.roots := fun c hc => mem_map_of_mem (by rw [hp]; exact mem_append_left _ hc)
  have hne : ∀ b ∈ k.roots, b ≠ d := fun b hb hx => (nodup_cons.1 hshape.nodup).1 (hx ▸ hb)
  refine ⟨h.halted, hfail, ⟨⟨addr, k.nextPid, d, f.stackLow, f.brk, f.addr, false, 0⟩ :: cs, f, by simp only [hp, cons_append],
    by rw [length_cons, hlen], hz, fun c hc => ?_⟩, hcow.shape, fun b hb v hv => ?_, ?_, Nat.min_le_left _ _, fun g hg => ?_⟩
  · rcases mem_cons.1 hc with rfl | hc
    · refine ⟨rfl, rfl, fun p t hpath ht => ?_⟩
      rcases hcow.new p t hpath ht with hold | hnew
      · obtain ⟨-, rfl⟩ := follow_of_empty hempty hpath hold
        exact hFd
      · by_contra hge
        rcases Nat.lt_or_eq_of_le (not_lt.1 hge) with hlt | rfl
        · exact absurd (hbelow1 t hlt) (by rw [hnew]; decide)
        · exact absurd hheld1.used (by rw [hnew]; decide)
    · obtain ⟨h1, h2, h3⟩ := hcs c hc
      refine ⟨h1, h2, fun p t hpath ht => h3 p t hpath ?_⟩
      have hcR := hroots c hc
      rw [hcow.tab c.pml4 (mem_cons_of_mem _ hcR) (hne _ hcR) p hpath, htook.follow h.shape hcR hpath] at ht
      exact ht
  · rcases mem_cons.1 hb with rfl | hb
    · simp only
      rw [hcow.leafDst v hv, if_pos hv, htook.leaf h.shape ha v, hdem]
      exact hone v hv
    · by_cases hbf : b = f.pml4
      · subst hbf
        simp only
        rw [hcow.leafSrc v hv, if_pos hv, htook.leaf h.shape ha v, hdem]
        exact hone v hv
      · simp only
        rw [hcow.leafOther b (mem_cons_of_mem _ hb) hbf (hne b hb) v hv, htook.leaf h.shape hb v]
        exact h.leaf b hb v hv
  · simp only
    rw [hcow.rc F hheld1.used, (htook.pmm F (by omega)).2, hsum, h.rc]
    have := h.le
    omega
  · exact hcow.used g (hbelow1 g hg)

def reapOne (n : Nat) : List (Nat × Call) := [(0, .exit 0), (n + 1, .waitpid (-1) 0)]

theorem reapOne_eq {c f : Process} {cs : List Process} (hh : k.halted = false) (hp : k.procs = c :: (cs ++ [f]))
    (hlen : cs.length = n) (hc : c.zombie = false) (hf : f.zombie = false) (hpar : c.parent = f.addr) :
    (run step k (reapOne n)).1 = { k with vm := vmmFreeUserSpace k.vm c.pml4, procs := cs ++ [f] } ∧
    (run step k [(0, .exit 0)]).1.vm = k.vm := by
  have h1 : k.step (0, .exit 0) =
      ({ k with procs := { c with zombie := true, exitCode := 0 } :: (cs ++ [f]) }, .value 0) := by
    rw [step_eq hh (by rw [hp]; rfl) hc]
    simp only [call, sysExit, hp, set_cons_zero]
  refine ⟨?_, by rw [run_cons, h1]; rfl⟩
  unfold reapOne
  rw [run_cons, run_cons, h1]
  simp only
  have hi : (({ c with zombie := true, exitCode := 0 } : Process) :: (cs ++ [f]))[n + 1]? = some f := by
    rw [getElem?_cons_succ, getElem?_append_right (by omega), hlen, Nat.sub_self]; rfl
  rw [step_eq (k := { k with procs := { c with zombie := true, exitCode := 0 } :: (cs ++ [f]) }) hh hi hf]
  have hreap : schedulerReap ({ c with zombie := true, exitCode := 0 } :: (cs ++ [f])) f.addr (-1) =
      some { c with zombie := true, exitCode := 0 } := by
    unfold schedulerReap
    rw [find?_cons_of_pos]
    simp only [hpar, beq_self_eq_true, Bool.and_true, Bool.true_and]
    rfl
  have hset : ({ c with zombie := true, exitCode := 0 } :: (cs ++ [f])).set (n + 1) f =
      ({ c with zombie := true, exitCode := 0 } :: (cs ++ [f])) := by
    rw [set_cons_succ, set_append_right _ _ (by omega), hlen, Nat.sub_self, set_cons_zero]
  simp only [call, sysWaitpid, hreap, if_true, copyOut, hset, erase_cons_head, run]

theorem reap_dropped (h : Sharing k F r (n + 1)) : ∃ c cs f, k.procs = c :: (cs ++ [f]) ∧ cs.length = n ∧
    f.zombie = false ∧ (∀ x ∈ cs, x.zombie = false ∧ x.parent = f.addr ∧
      ∀ p t, TabPath p → follow k.vm.child x.pml4 p = some t → F < t) ∧
    (run step k (reapOne n)).1 = { k with vm := vmmFreeUserSpace k.vm c.pml4, procs := cs ++ [f] } ∧
    let s := vmmFreeUserSpace k.vm c.pml4
    (run step k [(0, .exit 0)]).1.vm = k.vm ∧ Dropped k.vm s c.pml4 ∧
    (∀ g, leafCount k.vm c.pml4 g = if g = F then 1 else 0) ∧ s.pmm.Has F (r - 1) ∧ ∀ g < F, s.pmm.used g = true := by
  obtain ⟨cs', f, hp, hlen, hz, hcs⟩ := h.procs
  cases cs' with
  | nil => cases hlen
  | cons c cs =>
    have hi : k.procs[0]? = some c := by rw [hp]; rfl
    have hca := mem_kernelRoots hi
    obtain ⟨hc1, hc2, hc3⟩ := hcs c mem_cons_self
    have hlen' : cs.length = n := by rw [length_cons] at hlen; omega
    obtain ⟨heq, hvm⟩ := reapOne_eq h.halted hp hlen' hc1 hz hc2
    have d := vmmFreeUserSpace_dropped h.shape hca
    have hcount := leafCount_of_one (h.leaf c.pml4 hca)
    have hF := d.rc F h.held (fun p hpath ht => by have := hc3 p F hpath ht; omega)
    rw [hcount, if_pos rfl, h.rc] at hF
    refine ⟨c, cs, f, hp, hlen', hz, fun x hx => hcs x (mem_cons_of_mem _ hx), heq, hvm, d, hcount, hF, fun g hg => ?_⟩
    rw [d.used g (fun p hpath ht => by have := hc3 p g hpath ht; omega) (by rw [hcount, if_neg (by omega)])]
    exact h.below g hg

/-- **One sharer less**, as long as the frame keeps a reference. -/
theorem reap (h : Sharing k F r (n + 1)) (hr : 2 ≤ r) : Sharing (run Kernel.step k (reapOne n)).1 F (r - 1) n := by
  obtain ⟨c, cs, f, hp, hlen, hz, hcs, heq, -, d, hcount, hF, hbelow⟩ := h.reap_dropped
  have hroots : k.roots = c.pml4 :: (cs ++ [f]).map Process.pml4 := by unfold Kernel.roots; rw [hp, map_cons]
  have hca : c.pml4 ∈ k.roots := by rw [hroots]; exact mem_cons_self
  obtain ⟨hleaf, hchild⟩ := leaf_of_mem d.mem
  have hshape : Shape (vmmFreeUserSpace k.vm c.pml4) (k.roots.erase c.pml4) := by
    refine d.shape h.shape hca (fun b hb v hv e he => ?_)
    have hbF := h.leaf b (mem_of_mem_erase hb) v hv
    rw [he, map_some] at hbF
    split at hbF
    · rw [some.inj hbF, hcount, if_pos rfl, h.rc]
      omega
    · cases hbF
  rw [heq]
  rw [hroots, erase_cons_head] at hshape
  refine ⟨h.halted, d.failed.trans h.failed, ⟨cs, f, rfl, hlen, hz, fun x hx => ?_⟩, hshape, fun b hb v hv => ?_, hF.2.1,
    by have := h.le; omega, hbelow⟩
  · simp only [hchild]
    exact hcs x hx
  · simp only [hleaf]
    exact h.leaf b (by rw [hroots]; exact mem_cons_of_mem _ hb) v hv

end Sharing

/-! ## Whole runs -/

def forks : Nat → List (Nat × Call)
  | 0 => []
  | n + 1 => forks n ++ [(n, .fork (0x2000 + n))]

def reaps : Nat → List (Nat × Call)
  | 0 => []
  | n + 1 => Sharing.reapOne n ++ reaps n

theorem Sharing.forks {k : Kernel} {F : Nat} (h : Sharing k F 1 0) : ∀ n m, Room k.vm.pmm (m + 4 * n) →
    Sharing (run step k (forks n)).1 F (min 255 (n + 1)) n ∧ Room (run step k (Noxis.forks n)).1.vm.pmm m ∧
    Always step (fun k => k.vm.pmm.failed = false) k (Noxis.forks n)
  | 0, _, hroom => ⟨h, hroom, nil h.failed⟩
  | n + 1, m, hroom => by
    obtain ⟨h1, h2, h3⟩ := Sharing.forks h n (m + 4) (hroom.mono (by omega))
    obtain ⟨h4, h5⟩ := h1.fork (0x2000 + n) (by omega) h2
    rw [Noxis.forks, run_append]
    refine ⟨?_, h5, h3.append (cons h1.failed (nil h4.failed))⟩
    have : min 255 (min 255 (n + 1) + 1) = min 255 (n + 1 + 1) := by omega
    rw [this] at h4
    exact h4

/-- A frame that a live process maps and that the allocator hands out next. -/
def Recycled (k : Kernel) (F : Nat) : Prop :=
  (pmmAllocFrame k.vm.pmm).1 = F ∧ k.vm.pmm.refcount F < mapCount k.vm k.roots F ∧
  ∃ p ∈ k.procs, ∃ v < userPages, ∃ e, k.vm.leaf p.pml4 v = some e ∧ e.frame = F

theorem Sharing.recycled {k : Kernel} {F : Nat} (h : Sharing k F 1 1) : Recycled (run step k (reapOne 0)).1 F ∧
    (run step k (reapOne 0)).1.vm.pmm.failed = false := by
  obtain ⟨c, cs, f, hp, hlen, -, -, heq, -, d, -, hF, hbelow⟩ := h.reap_dropped
  obtain rfl := length_eq_zero_iff.1 hlen
  have hfa : f.pml4 ∈ k.roots := mem_map_of_mem (by rw [hp]; simp)
  obtain ⟨hleaf, -⟩ := leaf_of_mem d.mem
  have hone := h.leaf f.pml4 hfa
  rw [heq]
  refine ⟨⟨pmmAllocFrame_of_least _ hF.1 (by rw [hF.2.2]; rfl) hbelow, ?_, f, mem_singleton.2 rfl, stackPage, stackPage_lt, ?_⟩,
    d.failed.trans h.failed⟩
  · have hcount := leafCount_of_one (s := vmmFreeUserSpace k.vm c.pml4) (a := f.pml4) (F := F) (by rw [hleaf]; exact hone) F
    rw [if_pos rfl] at hcount
    show _ < mapCount (vmmFreeUserSpace k.vm c.pml4) [f.pml4] F
    rw [mapCount_cons, hcount, hF.2.1]
    omega
  · have := hone stackPage stackPage_lt
    rw [if_pos rfl] at this
    obtain ⟨e, he, hfr⟩ := map_eq_some_iff.1 this
    exact ⟨e, by simp only [hleaf]; exact he, hfr⟩

theorem Sharing.reapOne_ok {k : Kernel} {F r n : Nat} (h : Sharing k F r (n + 1))
    (hok : (run step k (reapOne n)).1.vm.pmm.failed = false) :
    Always step (fun k => k.vm.pmm.failed = false) k (reapOne n) := by
  obtain ⟨c, cs, f, -, -, -, -, -, hvm, -⟩ := h.reap_dropped
  refine cons h.failed (cons ?_ (nil hok))
  rw [run_cons] at hvm
  simp only [run] at hvm
  rw [hvm]
  exact h.failed

theorem Sharing.reaps {F : Nat} : ∀ (n : Nat) {k : Kernel}, Sharing k F (n + 1) (n + 1) →
    Recycled (run step k (reaps (n + 1))).1 F ∧ Always step (fun k => k.vm.pmm.failed = false) k (Noxis.reaps (n + 1))
  | 0, k, h => by
    obtain ⟨h1, h2⟩ := h.recycled
    have hone : Noxis.reaps 1 = reapOne 0 := by simp only [Noxis.reaps, append_nil]
    rw [hone]
    exact ⟨h1, h.reapOne_ok h2⟩
  | n + 1, k, h => by
    have h1 := h.reap (by omega)
    rw [Nat.add_sub_cancel] at h1
    obtain ⟨h2, h3⟩ := Sharing.reaps n h1
    rw [Noxis.reaps, run_append]
    exact ⟨h2, (h.reapOne_ok h1.failed).append h3⟩

/-! ## From boot -/

def startVm : Vm := vmmInit ⟨fun _ _ => 0, pmmInit (128 * 1024 * 1024), 0⟩

def bareImage : Image := fun i =>
  if i = 0 then 0x7F else if i = 1 then 0x45 else if i = 2 then 0x4C else if i = 3 then 0x46 else if i = 4 then 2
  else if i = 24 then 1 else 0

theorem bareImage_under : Under bareImage := fun i hi => absurd hi (by rw [show ePhnum bareImage = 0 by decide]; omega)

theorem startVm_ready : Ready startVm := vmmInit_ready _ _ vmmInit_room.failed

theorem bareImage_load (s : Vm) (a : Nat) : elf64LoadInto s a bareImage = (s, 1, 0) := by
  unfold elf64LoadInto
  rw [show elfOk bareImage = true by decide, show ePhnum bareImage = 0 by decide, show eEntry bareImage = 1 by decide]
  rfl

theorem boot_sharing : ∃ F ≠ 0, Sharing (boot startVm bareImage 0x1000) F 1 0 ∧
    Room (boot startVm bareImage 0x1000).vm.pmm 3570 := by
  have hr1 := vmmCreateAddressSpace_room (k := 3578) (s := startVm) vmmInit_room
  obtain ⟨-, hsound, hnone⟩ := Sound.create (s := startVm) (R := []) ⟨startVm_ready.shape, fun f => Nat.zero_le _⟩ hr1.failed
  unfold boot
  simp only [bareImage_load]
  generalize (vmmCreateAddressSpace startVm).1 = d at *
  generalize (vmmCreateAddressSpace startVm).2 = s at *
  have hr2 := hr1.alloc
  have hr3 : Room (bootStack s d).pmm 3570 := by
    unfold bootStack
    simp only
    rw [storeAll_pmm]
    exact vmmMapPageInto_room (s := s.allocFrame.2) (hr2.2.mono (by omega))
  obtain ⟨h1, htook, hheld, hleaf⟩ := bootStack_spec (.inr hsound) hr3.failed
  have hleast := pmmAllocFrame_least s.pmm hr2.1
  refine ⟨s.allocFrame.1, hr2.1, ⟨rfl, hr3.failed, ⟨[], _, rfl, rfl, rfl, fun c hc => by cases hc⟩, h1.shape, fun a ha v hv => ?_,
    ?_, by decide, fun g hg => ?_⟩, hr3⟩
  · rw [mem_singleton.1 ha]
    simp only
    rw [hleaf v hv, hnone v hv]
    rfl
  · exact ((hheld _ htook.heldNew.used).2).trans htook.rcNew
  · have hg' : g < (pmmAllocFrame s.pmm).1 := hg
    refine (hheld g ?_).1
    rw [(htook.pmm g (ne_of_lt hg')).1]
    exact hleast.2 g hg'

/-- **255 forks and 255 reaps later the first process's stack page is free memory.**  It is still mapped, and it is what
`pmm_alloc_frame` returns next. -/
theorem recycled_while_mapped : Ready startVm ∧ Under bareImage ∧
    Always Kernel.step (fun k => k.vm.pmm.failed = false) (boot startVm bareImage 0x1000) (forks 255 ++ reaps 255) ∧
    ∃ F ≠ 0, Recycled (run Kernel.step (boot startVm bareImage 0x1000) (forks 255 ++ reaps 255)).1 F := by
  obtain ⟨F, hF, h, hroom⟩ := boot_sharing
  obtain ⟨h1, -, h2⟩ := h.forks 255 2550 hroom
  obtain ⟨h3, h4⟩ := Sharing.reaps 254 h1
  rw [run_append]
  exact ⟨startVm_ready, bareImage_under, h2.append h4, F, hF, h3⟩

theorem no_live_frame_recycled_one_fork : (∀ f, mapCount (run Kernel.step (boot startVm bareImage 0x1000) (forks 1)).1.vm
      (run Kernel.step (boot startVm bareImage 0x1000) (forks 1)).1.roots f ≤
        (run Kernel.step (boot startVm bareImage 0x1000) (forks 1)).1.vm.pmm.refcount f) ∧
    ∀ p ∈ (run Kernel.step (boot startVm bareImage 0x1000) (forks 1)).1.procs, ∀ v < userPages, ∀ e,
      (run Kernel.step (boot startVm bareImage 0x1000) (forks 1)).1.vm.leaf p.pml4 v = some e →
      (pmmAllocFrame (run Kernel.step (boot startVm bareImage 0x1000) (forks 1)).1.vm.pmm).1 ≠ 0 →
      (pmmAllocFrame (run Kernel.step (boot startVm bareImage 0x1000) (forks 1)).1.vm.pmm).1 ≠ e.frame := by
  obtain ⟨F, hF, h, hroom⟩ := boot_sharing
  refine no_live_frame_recycled startVm startVm_ready bareImage bareImage_under 0x1000 (forks 1) (h.forks 1 3566 hroom).2.2
    (splits_cons.2 ⟨?_, splits_nil⟩)
  obtain ⟨cs, f, hprocs, hlen, -⟩ := h.procs
  obtain rfl := length_eq_zero_iff.1 hlen
  intro cur hcur g
  have hroots : (boot startVm bareImage 0x1000).roots = [f.pml4] := by unfold Kernel.roots; rw [hprocs]; rfl
  have hone := leafCount_le_one h.shape (mem_kernelRoots hcur) g
  have hone' := leafCount_le_one h.shape (a := f.pml4) (by rw [hroots]; exact mem_singleton.2 rfl) g
  simp only [run]
  rw [hroots, mapCount_cons]
  have hnil : mapCount (boot startVm bareImage 0x1000).vm [] g = 0 := rfl
  omega

end Noxis
