import Noxis.Atomic
import Noxis.Touch
/-!
# Brk — the heap `sys_brk` grows

`sys_brk` maps a zeroed frame at every page between the old break and the new one, below the ceiling `USER_HEAP_MAX`.  A
process that `sys_exec` has started has nothing mapped between its break and the ceiling, so every break it is granted is
exact: the new pages are fresh and nothing else changes (`Granted`).  But the ceiling is `0x40000000`, where `user.ld` puts
the first segment: the initial break of such a program is above it, and no request is ever granted (`linked_brk_refused`).
-/
namespace Noxis

open Radix Kernel Nat

def Kernel.brk (i : Nat) (k : Kernel) (addr : Nat) : Kernel × Ret :=
  match k.procs[i]? with
  | none => (k, .wait)
  | some cur => sysBrk k i cur addr

/-- What a process may expect of a break moved from `brk` to `addr`: every page between them is mapped, those that were not
there on distinct fresh frames full of zeroes, and the pages that were there are on the frames and show the bytes they did. -/
structure Granted (s s' : Vm) (pml4 brk addr : Nat) : Prop where
  mapped : ∀ w, brk / 4096 ≤ w → w * 4096 < addr → (s'.leaf pml4 w).isSome = true
  fresh : ∀ w, brk / 4096 ≤ w → w * 4096 < addr → s.leaf pml4 w = none →
    ∃ e, s'.leaf pml4 w = some e ∧ s.pmm.used e.frame = false ∧ s'.mem e.frame = fun _ => 0
  distinct : ∀ v < userPages, ∀ w < userPages, ∀ e e', s'.leaf pml4 v = some e → s'.leaf pml4 w = some e' →
    e.frame = e'.frame → v = w
  kept : ∀ w < userPages, ∀ e, s.leaf pml4 w = some e → s'.leaf pml4 w = some e ∧ s'.mem e.frame = s.mem e.frame

/-! ## One page -/

section Page

variable {s s' s0 : Vm} {R : List Nat} {a v top j : Nat}

/-- Pages `top, …, top + j - 1` are new, on frames that were free in `s0`; the rest is as it was. -/
structure Heaped (s0 s : Vm) (R : List Nat) (a top j : Nat) : Prop where
  sound : Sound s R
  new : ∀ w, top ≤ w → w < top + j → ∃ e, s.leaf a w = some e ∧ s0.pmm.used e.frame = false ∧ s.mem e.frame = fun _ => 0
  old : ∀ w < userPages, ¬ (top ≤ w ∧ w < top + j) → s.leaf a w = s0.leaf a w
  mem : ∀ w < userPages, ∀ e, s0.leaf a w = some e → s.mem e.frame = s0.mem e.frame
  used : ∀ f, s0.pmm.used f = true → s.pmm.used f = true

theorem Heaped.start (h : Sound s R) : Heaped s s R a top 0 :=
  ⟨h, fun _ _ _ => by omega, fun _ _ _ => rfl, fun _ _ _ _ => rfl, fun _ h => h⟩

theorem Heaped.page (h : Heaped s0 s R a top j) (h0 : Sound s0 R) (ha : a ∈ R) (hv : top + j < userPages)
    (hnone : ∀ w, top ≤ w → w < top + j → s0.leaf a w = none)
    (hok : (brkPage a (4096 * top + 4096 * j) s).1.pmm.failed = false) :
    (brkPage a (4096 * top + 4096 * j) s).2 = true ∧ Heaped s0 (brkPage a (4096 * top + 4096 * j) s).1 R a top (j + 1) := by
  have hva : (4096 * top + 4096 * j) / 4096 = top + j := by omega
  have hf : s.allocFrame.2.pmm.failed = false := by
    unfold brkPage at hok
    dsimp only at hok
    split at hok
    · exact hok
    · exact vmmMapPageInto_failed (s.allocFrame.2.setFrame s.allocFrame.1 (fun _ => 0)) _ _ _ _ hok
  obtain ⟨hne, htook⟩ := took_allocFrame hf (fun _ => 0)
  have hzero : (s.allocFrame.2.setFrame s.allocFrame.1 (fun _ => 0)).mem s.allocFrame.1 = fun _ => 0 := mem_setFrame
  unfold brkPage at hok ⊢
  dsimp only at hok ⊢
  rw [if_neg hne] at hok ⊢
  generalize s.allocFrame.1 = c at *
  generalize s.allocFrame.2.setFrame c (fun _ => 0) = z at *
  have hshow := map_fresh h.sound.shape h.sound.counted ha (by rw [hva]; exact hv) htook hzero hok
  have m := htook.mapped h.sound.shape ha (by rw [hva]; exact hv) (by decide) (by decide) (vmmMapPageInto_true hok)
  rw [hva] at hshow m
  generalize (vmmMapPageInto z a (4096 * top + 4096 * j) c (PAGE_RW ||| PAGE_USER)).1 = s' at *
  have hleaf : ∀ w < userPages, w ≠ top + j → s'.leaf a w = s.leaf a w := fun w hw hne =>
    (m.leaf a ha w hw (fun hc => hne hc.2)).trans (htook.leaf h.sound.shape ha w)
  have hmem : ∀ f, s.pmm.used f = true → (∀ p, TabPath p → follow s.child a p ≠ some f) → s'.mem f = s.mem f := fun f hu hnt => by
    rw [m.mem f (by rw [(htook.pmm f (htook.ne hu)).1]; exact hu) (fun p hp => by
      rw [htook.follow h.sound.shape ha hp]; exact hnt p hp), htook.mem f (htook.ne hu)]
  refine ⟨rfl, ⟨hshow.shape, hshow.counted⟩, fun w h1 h2 => ?_, fun w hw hout => ?_, fun w hw e he => ?_, fun f hu => ?_⟩
  · by_cases hw : w = top + j
    · subst hw
      refine ⟨_, hshow.leaf, ?_, hshow.self⟩
      cases hu : s0.pmm.used c with
      | false => rfl
      | true =>
        have := htook.unused
        rw [h.used c hu] at this
        cases this
    · obtain ⟨e, he, hu, hz⟩ := h.new w h1 (by omega)
      refine ⟨e, by rw [hleaf w (by omega) hw]; exact he, hu, ?_⟩
      rw [hmem e.frame (h.sound.shape.leafHeld a ha w (by omega) e he).used
        (fun p hp => h.sound.shape.leafTab a ha w (by omega) e he a ha p hp)]
      exact hz
  · rw [hleaf w hw (by omega), h.old w hw (by omega)]
  · by_cases hin : top ≤ w ∧ w < top + j
    · rw [hnone w hin.1 hin.2] at he
      cases he
    · rw [hmem e.frame (h.used _ (h0.shape.leafHeld a ha w hw e he).used) (fun p hp => ?_), h.mem w hw e he]
      exact h.sound.shape.leafTab a ha w hw e (by rw [h.old w hw hin]; exact he) a ha p hp
  · exact (m.held f (by rw [(htook.pmm f (htook.ne (h.used f hu))).1]; exact h.used f hu)).1

theorem failed_closed : AllocClosed (fun p => p.failed = true) where
  alloc := fun p h => by
    unfold pmmAllocFrame
    split
    · simp only [h, Bool.true_or]
    · rfl
  addref := fun p f h => by rw [pmmAddref_failed]; exact h

variable (top) in
/-- **The loop of `sys_brk`** adds its pages, or an allocation failed. -/
theorem brk_pages (h0 : Sound s0 R) (ha : a ∈ R) {n : Nat} (hn : top + n ≤ userPages)
    (hnone : ∀ w, top ≤ w → w < top + n → s0.leaf a w = none) :
    Ends (fun s => s.pmm.failed = true) (fun s => s.pmm.failed = true) (fun s => Heaped s0 s R a top n)
      (forUpTo (fun j s => brkPage a (4096 * top + 4096 * j) s) n s0) := by
  refine forUpTo_ends (P := fun j s => Heaped s0 s R a top j) (fun j s hs => failed_closed.brkPage hs _) (fun _ hs => hs) n s0
    (Heaped.start h0) (fun j s hj hs => Ends.of_or ?_)
  cases hf : (brkPage a (4096 * top + 4096 * j) s).1.pmm.failed with
  | true => exact .inl rfl
  | false => exact .inr (hs.page h0 ha (by omega) (fun w h1 h2 => hnone w h1 (by omega)) hf)

theorem brkPage_room (va : Nat) {k : Nat} (h : Room s.pmm (k + 4)) : Room (brkPage a va s).1.pmm k := by
  have h1 : Room s.allocFrame.2.pmm (k + 3) := (Room.alloc (k := k + 3) h).2
  unfold brkPage
  dsimp only
  split
  · exact h1.mono (by omega)
  · exact vmmMapPageInto_room (s := s.allocFrame.2.setFrame s.allocFrame.1 (fun _ => 0)) h1

theorem brk_pages_room (top : Nat) {n : Nat} (hroom : Room s0.pmm (4 * n)) :
    Room (forUpTo (fun j s => brkPage a (4096 * top + 4096 * j) s) n s0).1.pmm 0 := by
  have hloop := forUpTo_inv (fun j s => brkPage a (4096 * top + 4096 * j) s) (fun j s => Room s.pmm (4 * (n - j)))
    (fun s => Room s.pmm 0) n s0 hroom (fun j s hj hs => by
      have hpage := brkPage_room (a := a) (4096 * top + 4096 * j) (k := 4 * (n - (j + 1)))
        (by rw [show 4 * (n - (j + 1)) + 4 = 4 * (n - j) by omega]; exact hs)
      exact ⟨fun _ => hpage, fun _ => hpage.mono (zero_le _)⟩)
  cases hb : (forUpTo (fun j s => brkPage a (4096 * top + 4096 * j) s) n s0).2 with
  | true => exact (hloop.1 hb).mono (zero_le _)
  | false => exact hloop.2 hb

end Page

/-! ## A request -/

/-- Nothing is mapped between the break and the ceiling, and a break inside a page has its page. -/
structure HeapTop (s : Vm) (p : Process) : Prop where
  above : ∀ w, p.brk ≤ w * 4096 → w * 4096 < userHeapMax → s.leaf p.pml4 w = none
  inside : p.brk < userHeapMax → p.brk % 4096 ≠ 0 → (s.leaf p.pml4 (p.brk / 4096)).isSome = true

section Request

variable {k : Kernel} {i : Nat} {cur : Process}

theorem pageUp_eq {x : Nat} (h : x < userHeapMax) : pageUp x = 4096 * ((x + 4095) / 4096) := by
  unfold userHeapMax at h
  unfold pageUp
  omega

/-- **What `sys_brk` answers**: it refuses, or it grants the break exactly. -/
theorem sysBrk_cases (h : k.Sound) (hi : k.procs[i]? = some cur) (ht : HeapTop k.vm cur) (addr : Nat)
    (hok : (sysBrk k i cur addr).1.vm.pmm.failed = false) :
    (sysBrk k i cur addr = (k, .value cur.brk) ∧ (addr ≤ cur.brk ∨ userHeapMax ≤ addr)) ∨
    (cur.brk < addr ∧ addr < userHeapMax ∧ ∃ s, sysBrk k i cur addr =
        ({ k with vm := s, procs := k.procs.set i { cur with brk := addr } }, .value addr) ∧
      Granted k.vm s cur.pml4 cur.brk addr ∧ Sound s k.roots ∧ HeapTop s { cur with brk := addr }) := by
  have ha := mem_kernelRoots hi
  by_cases href : addr = 0 ∨ addr ≤ cur.brk ∨ userHeapMax ≤ addr
  · refine .inl ⟨by unfold sysBrk; rw [if_pos href], ?_⟩
    rcases href with rfl | hr
    · exact .inl (zero_le _)
    · exact hr
  rw [not_or, not_or, not_le, not_le] at href
  obtain ⟨-, hlt, hmax⟩ := href
  have hmax' : addr < 0x40000000 := hmax
  have hup := pageUp_eq hmax
  have hdown := pageUp_eq (x := cur.brk) (by omega)
  set c := (cur.brk + 4095) / 4096
  have hn : (4096 * ((addr + 4095) / 4096) - 4096 * c) / 4096 =
      (addr + 4095) / 4096 - (cur.brk + 4095) / 4096 := by omega
  have hpages := brk_pages (n := (addr + 4095) / 4096 - (cur.brk + 4095) / 4096) c
    h ha (by unfold userPages; omega) (fun w h1 h2 => ht.above w (by omega) (by unfold userHeapMax; omega))
  unfold sysBrk at hok ⊢
  rw [if_neg (by omega), hup, hdown, hn] at hok ⊢
  generalize forUpTo (fun j s => brkPage cur.pml4 (4096 * c + 4096 * j) s)
    ((addr + 4095) / 4096 - (cur.brk + 4095) / 4096) k.vm = r at hok hpages ⊢
  obtain ⟨s, b⟩ := r
  obtain ⟨rfl, hs⟩ : b = true ∧ Heaped k.vm s k.roots cur.pml4 c
      ((addr + 4095) / 4096 - (cur.brk + 4095) / 4096) := by
    refine hpages.or.resolve_left (fun hf => ?_)
    have hf' : s.pmm.failed = true := hf
    cases b <;> exact absurd hok (by simp [hf'])
  -- a page of the range is new, or it is the page the old break was in
  have hnew : ∀ w, cur.brk / 4096 ≤ w → w * 4096 < addr → k.vm.leaf cur.pml4 w = none →
      ∃ e, s.leaf cur.pml4 w = some e ∧ k.vm.pmm.used e.frame = false ∧ s.mem e.frame = fun _ => 0 := fun w h1 h2 hnone => by
    by_cases htop : (cur.brk + 4095) / 4096 ≤ w
    · exact hs.new w htop (by omega)
    · have hin := ht.inside (by omega) (by omega)
      rw [show cur.brk / 4096 = w by omega, hnone] at hin
      cases hin
  have hkept : ∀ w < userPages, ∀ e, k.vm.leaf cur.pml4 w = some e → s.leaf cur.pml4 w = some e := fun w hw e he => by
    rw [hs.old w hw (fun hc => ?_)]
    · exact he
    · rw [ht.above w (by omega) (by unfold userHeapMax; omega)] at he
      cases he
  have hmapped : ∀ w, cur.brk / 4096 ≤ w → w * 4096 < addr → (s.leaf cur.pml4 w).isSome = true := fun w h1 h2 => by
    cases he : k.vm.leaf cur.pml4 w with
    | none =>
      obtain ⟨e, he', -⟩ := hnew w h1 h2 he
      rw [he']
      rfl
    | some e =>
      rw [hkept w (by unfold userPages; omega) e he]
      rfl
  refine .inr ⟨hlt, hmax, s, rfl, ⟨hmapped, hnew, hs.sound.shape.leafInj _ ha, fun w hw e he => ⟨hkept w hw e he, hs.mem w hw e he⟩⟩,
    hs.sound, fun w h1 h2 => ?_, fun _ hmod => ?_⟩
  · have h1' : addr ≤ w * 4096 := h1
    have h2' : w * 4096 < 0x40000000 := h2
    show s.leaf cur.pml4 w = none
    rw [hs.old w (by unfold userPages; omega) (by omega)]
    exact ht.above w (by omega) h2
  · have hmod' : addr % 4096 ≠ 0 := hmod
    exact hmapped (addr / 4096) (by omega) (by omega)

theorem sysBrk_room {addr : Nat} (hlt : cur.brk < addr) (hmax : addr < userHeapMax)
    (hroom : Room k.vm.pmm (4 * ((addr + 4095) / 4096 - (cur.brk + 4095) / 4096))) :
    (sysBrk k i cur addr).1.vm.pmm.failed = false := by
  set w := (cur.brk + 4095) / 4096
  have hn : (4096 * ((addr + 4095) / 4096) - 4096 * w) / 4096 =
      (addr + 4095) / 4096 - (cur.brk + 4095) / 4096 := by omega
  have hloop := brk_pages_room (a := cur.pml4) w hroom
  unfold sysBrk
  rw [if_neg (by omega), pageUp_eq hmax, pageUp_eq (x := cur.brk) (by omega), hn]
  generalize forUpTo (fun j s => brkPage cur.pml4 (4096 * w + 4096 * j) s)
    ((addr + 4095) / 4096 - (cur.brk + 4095) / 4096) k.vm = r at hloop ⊢
  obtain ⟨s, b⟩ := r
  cases b <;> exact hloop.failed

theorem sysBrk_refused (k : Kernel) (i : Nat) (addr : Nat) (h : userHeapMax ≤ cur.brk + 1) :
    sysBrk k i cur addr = (k, .value cur.brk) := by
  unfold sysBrk
  rw [if_pos (by omega)]

/-- What a process that only calls `sys_brk` keeps, unless an allocation fails. -/
def HeapOk (i : Nat) (k : Kernel) : Prop :=
  k.vm.pmm.failed = true ∨ (k.Sound ∧ ∃ p, k.procs[i]? = some p ∧ HeapTop k.vm p)

theorem brk_failed (addr : Nat) (h : k.vm.pmm.failed = true) : (k.brk i addr).1.vm.pmm.failed = true := by
  unfold brk
  split
  · exact h
  next cur _ =>
    have hloop : (forUpTo (fun j s => brkPage cur.pml4 (pageUp cur.brk + 4096 * j) s) ((pageUp addr - pageUp cur.brk) / 4096)
        k.vm).1.pmm.failed = true :=
      forUpTo_keeps _ (fun s => s.pmm.failed = true) _ (fun j s _ hs => failed_closed.brkPage hs _) k.vm h
    unfold sysBrk
    split
    · exact h
    · generalize forUpTo (fun j s => brkPage cur.pml4 (pageUp cur.brk + 4096 * j) s) ((pageUp addr - pageUp cur.brk) / 4096) k.vm = r
        at hloop
      obtain ⟨s, b⟩ := r
      cases b <;> exact hloop

theorem HeapOk.step (h : HeapOk i k) (addr : Nat) : HeapOk i (k.brk i addr).1 := by
  cases hf : (k.brk i addr).1.vm.pmm.failed with
  | true => exact .inl hf
  | false =>
    obtain ⟨hs, p, hi, ht⟩ := h.resolve_left (fun hc => by rw [brk_failed addr hc] at hf; cases hf)
    have hbrk : k.brk i addr = sysBrk k i p addr := by
      unfold brk
      simp only [hi]
    rw [hbrk] at hf ⊢
    rcases sysBrk_cases hs hi ht addr hf with ⟨heq, -⟩ | ⟨-, -, s, heq, -, hsound, htop⟩
    · rw [heq]
      exact .inr ⟨hs, p, hi, ht⟩
    · rw [heq]
      exact .inr ⟨sound_set hsound hi rfl, _, List.getElem?_set_self (List.getElem?_eq_some_iff.1 hi).1, htop⟩

theorem HeapOk.run (h : HeapOk i k) (addrs : List Nat) : HeapOk i (run (brk i) k addrs).1 :=
  run_inv (P := HeapOk i) (C := fun _ _ => True) (fun _ addr hk _ => hk.step addr) addrs k h (fun _ _ _ _ => trivial)

theorem loadEnd_lt (img : Image) : ∀ n, loadEnd img n % 4096 = 0 ∧ loadEnd img n < 2 ^ 64
  | 0 => ⟨rfl, Nat.two_pow_pos 64⟩
  | n + 1 => by
    obtain ⟨h1, h2⟩ := loadEnd_lt img n
    have hend : (phdr img n).vend % 4096 = 0 ∧ (phdr img n).vend < 2 ^ 64 := by
      unfold Phdr.vend
      omega
    rw [loadEnd]
    split
    · rcases Nat.le_total (loadEnd img n) (phdr img n).vend with hle | hle
      · rw [Nat.max_eq_right hle]
        exact hend
      · rw [Nat.max_eq_left hle]
        exact ⟨h1, h2⟩
    · exact ⟨h1, h2⟩

end Request

/-! ## A program's heap -/

/-- **When the heap of a program can grow.**  A process that `sys_exec` has started is granted some address above its break,
and every address granted to it is granted exactly, exactly when the end of its highest segment is below the heap's
ceiling. -/
theorem heap_grows_iff (k : Kernel) (hk : k.Sound) (i : Nat) (img : Image) (himg : Under img) (argv : List (List UInt8))
    (hargv : ArgvFits argv) (hexec : (k.step (i, .exec (some img) argv)).2 = .value 0)
    (hroom : Room (k.step (i, .exec (some img) argv)).1.vm.pmm 4) : let k' := (k.step (i, .exec (some img) argv)).1
    ((∃ addr, loadEnd img (ePhnum img) < addr ∧ (k'.brk i addr).2 = .value addr) ∧
      ∀ addrs addr, let k1 := (run (Kernel.brk i) k' addrs).1
        (k1.brk i addr).1.vm.pmm.failed = false → ∀ p, k1.procs[i]? = some p → p.brk < addr → (k1.brk i addr).2 = .value addr →
          Granted k1.vm (k1.brk i addr).1.vm p.pml4 p.brk addr) ↔
    loadEnd img (ePhnum img) + 1 < userHeapMax := by
  obtain ⟨hsound, -, p, hp, -, -, hbrk, hnone⟩ := exec_started hk himg hargv hexec hroom.failed
  intro k'
  change k'.Sound at hsound
  change k'.procs[i]? = some p at hp
  have hnone' : ∀ w < userPages, p.brk ≤ w * 4096 → w ≠ USTACK_BASE / 4096 → k'.vm.leaf p.pml4 w = none := hnone
  have hroom' : Room k'.vm.pmm 4 := hroom
  generalize k' = k0 at *
  obtain ⟨hmod, -⟩ := loadEnd_lt img (ePhnum img)
  rw [← hbrk] at hmod ⊢
  have htop : HeapTop k0.vm p := ⟨fun w h1 h2 => hnone' w (by unfold userHeapMax at h2; unfold userPages; omega) h1
    (by unfold userHeapMax at h2; unfold USTACK_BASE; omega), fun _ hc => absurd hmod hc⟩
  have hcall : ∀ addr, k0.brk i addr = sysBrk k0 i p addr := fun addr => by unfold brk; simp only [hp]
  constructor
  · rintro ⟨⟨addr, hlt, hgrant⟩, -⟩
    by_contra hmax
    rw [hcall, sysBrk_refused k0 i addr (by omega)] at hgrant
    injection hgrant with hx
    omega
  · intro hmax
    refine ⟨⟨p.brk + 1, lt_succ_self _, ?_⟩, fun addrs addr => ?_⟩
    · have hok := sysBrk_room (k := k0) (i := i) (lt_succ_self p.brk) hmax
        (by rw [show (p.brk + 1 + 4095) / 4096 - (p.brk + 4095) / 4096 = 1 by omega]; exact hroom')
      rw [hcall]
      rcases sysBrk_cases hsound hp htop (p.brk + 1) hok with ⟨-, hc⟩ | ⟨-, -, s, heq, -⟩
      · omega
      · rw [heq]
    · intro k1 hok q hq hlt hgrant
      have hrun : HeapOk i k1 := HeapOk.run (.inr ⟨hsound, p, hp, htop⟩) addrs
      obtain ⟨hs, q', hq', ht⟩ := hrun.resolve_left (fun hc => by rw [brk_failed addr hc] at hok; cases hok)
      rw [hq] at hq'
      obtain rfl := Option.some.inj hq'
      have hcall1 : k1.brk i addr = sysBrk k1 i q addr := by unfold brk; simp only [hq]
      rw [hcall1] at hok hgrant ⊢
      rcases sysBrk_cases hs hq ht addr hok with ⟨heq, -⟩ | ⟨-, -, s, heq, hg, -⟩
      · rw [heq] at hgrant
        injection hgrant with hx
        omega
      · rw [heq]
        exact hg

/-- A program linked by `user.ld`: it has a segment at `0x40000000`. -/
def LinkedAtBase (img : Image) : Prop :=
  ∃ j < ePhnum img, (phdr img j).ptype = PT_LOAD ∧ (phdr img j).vaddr = 0x40000000

/-- **The break of a program linked by `user.ld` is at or above the ceiling**, so that it is never granted an address. -/
theorem linked_brk_refused {img : Image} (hu : Under img) (hl : LinkedAtBase img) :
    ¬ loadEnd img (ePhnum img) + 1 < userHeapMax := by
  obtain ⟨j, hj, hload, hva⟩ := hl
  have hle := vend_le_loadEnd img hj hload
  have hunder := hu j hj hload
  unfold Phdr.vend at hle
  unfold userHeapMax
  omega

/-! ## The first program -/

def linkedImage : Image := fun i =>
  if i = 0 then 0x7F else if i = 1 then 0x45 else if i = 2 then 0x4C else if i = 3 then 0x46 else if i = 4 then 2
  else if i = 27 then 0x40 else if i = 32 then 64 else if i = 56 then 1 else if i = 64 then 1
  else if i = 83 then 0x40 else if i = 104 then 1 else 0

/-- **A program linked by `user.ld` cannot grow its heap**: it runs, frames are free, and whatever it asks for the break
stays at `0x40001000`. -/
theorem linked_heap_stuck : (touchStart.step (0, .exec (some linkedImage) [])).2 = .value 0 ∧ LinkedAtBase linkedImage ∧
    30 < (touchStart.step (0, .exec (some linkedImage) [])).1.vm.pmm.free ∧
    ∀ addr, ((touchStart.step (0, .exec (some linkedImage) [])).1.brk 0 addr).2 = .value 0x40001000 := by
  refine ⟨by decide +kernel, ⟨0, by decide +kernel⟩, by decide +kernel, fun addr => ?_⟩
  obtain ⟨p, hp, hbrk⟩ : ∃ p, (touchStart.step (0, .exec (some linkedImage) [])).1.procs[0]? = some p ∧ p.brk = 0x40001000 :=
    ⟨_, rfl, by decide +kernel⟩
  unfold brk
  simp only [hp]
  rw [sysBrk_refused _ _ _ (by rw [hbrk]; decide), hbrk]
  rfl

/-- A program without segments starts with its break at 0 and is granted an address. -/
theorem heap_grows_iff_bare : ∃ addr, 0 < addr ∧ (touchKernel.brk 0 addr).2 = .value addr := by
  have hiff := heap_grows_iff touchStart touchStart_sound 0 bareImage bareImage_under [] ⟨by decide, by decide⟩
    (by decide +kernel) ⟨by decide +kernel, by decide +kernel, by decide +kernel⟩
  obtain ⟨⟨addr, hlt, hgrant⟩, -⟩ := hiff.2 (by decide +kernel)
  exact ⟨addr, lt_of_le_of_lt (zero_le _) hlt, hgrant⟩

end Noxis
