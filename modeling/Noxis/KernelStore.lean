import Noxis.CowFork
/-!
# KernelStore — supervisor stores into user memory

A system call stores its results through the caller's own address space, at supervisor privilege.  The processor honours
the read-only bit of an entry for such a store exactly when `CR0.WP` is set, and neither `boot.asm` nor `fpu_init` sets it
(`kernelCr0_wp`).  So a copy-out to a page shared copy-on-write goes straight to the shared frame: `copyOut_mem` says which
bytes it leaves there, and `kernel_stores_isolated_iff` when the other process cannot see it.
-/
namespace Noxis

open List Option Radix Machine Vm

/-! ## The control register -/

def CR0_PE : BitVec 64 := 1 <<< 0
def CR0_MP : BitVec 64 := 1 <<< 1
def CR0_EM : BitVec 64 := 1 <<< 2
def CR0_NE : BitVec 64 := 1 <<< 5
def CR0_PG : BitVec 64 := 1 <<< 31

/-- `boot.asm`: protected mode, then paging. -/
def bootCr0 (cr0 : BitVec 64) : BitVec 64 := (cr0 ||| CR0_PE) ||| CR0_PG

def fpuInit (cr0 : BitVec 64) : BitVec 64 := ((cr0 &&& ~~~CR0_EM) ||| CR0_MP) ||| CR0_NE

/-- CR0 while the kernel runs; nothing else writes it. -/
def kernelCr0 (powerOn : BitVec 64) : BitVec 64 := fpuInit (bootCr0 powerOn)

def writeProtect (cr0 : BitVec 64) : Bool := cr0.getLsbD 16

/-- **The kernel runs without write protection** when the processor starts without it. -/
theorem kernelCr0_wp (powerOn : BitVec 64) (h : writeProtect powerOn = false) : writeProtect (kernelCr0 powerOn) = false := by
  unfold writeProtect at *
  unfold kernelCr0 fpuInit bootCr0
  simpa [CR0_PE, CR0_MP, CR0_EM, CR0_NE, CR0_PG] using h

/-! ## One store -/

/-- A supervisor-mode access ignores the user bit, and the read-only bit unless `CR0.WP` is set. -/
def svTranslate (wp : Bool) (s : Vm) (cr3 va : Nat) (write : Bool) : Translation :=
  walk (fun e => !write || !wp || e.rw) s cr3 va

/-- The kernel stores `b` at `va` of the loaded address space, retried after a fault the handler returns from; `none` when
the kernel has halted, else the new `stack_low`. -/
def kernelStore (wp : Bool) (s : Vm) (cr3 va : Nat) (b : UInt8) (low : Nat) : Vm × Option Nat :=
  match svTranslate wp s cr3 va true with
  | .ok f => (s.setByte f (va % 4096) b, some low)
  | .fault p =>
    match vmmPageFaultHandler s cr3 va p true low with
    | (s, none) => (s, none)
    | (s, some low) =>
      match svTranslate wp s cr3 va true with
      | .ok f => (s.setByte f (va % 4096) b, some low)
      | .fault _ => (s, none)

/-- What a system call stores into its caller's memory, address by address. -/
def copyOut (wp : Bool) (cr3 : Nat) : List (Nat × UInt8) → Vm → Nat → Vm × Option Nat
  | [], s, low => (s, some low)
  | (va, b) :: stores, s, low =>
    match kernelStore wp s cr3 va b low with
    | (s, none) => (s, none)
    | (s, some low) => copyOut wp cr3 stores s low

def fill : Nat → List UInt8 → List (Nat × UInt8)
  | _, [] => []
  | buf, b :: bytes => (buf, b) :: fill (buf + 1) bytes

def storeInt (va x : Nat) : List (Nat × UInt8) := fill va ((List.range 4).map (fun k => UInt8.ofNat (x / 256 ^ k)))

/-- `sys_waitpid` stores the exit code, `sys_pipe` two descriptors, `sys_read`, `sys_getcwd` and `sys_getenv` bytes. -/
inductive CopyOut where
  | waitpid (status code : Nat)
  | pipe (fds r w : Nat)
  | bytes (buf : Nat) (data : List UInt8)

def CopyOut.stores : CopyOut → List (Nat × UInt8)
  | .waitpid status code => storeInt status code
  | .pipe fds r w => storeInt fds r ++ storeInt (fds + 4) w
  | .bytes buf data => fill buf data

/-! ## The bytes it leaves -/

def lastStore : List (Nat × UInt8) → Nat → Option UInt8
  | [], _ => none
  | (a, b) :: stores, va =>
    match lastStore stores va with
    | some x => some x
    | none => if a = va then some b else none

theorem lastStore_of_not_mem : ∀ (stores : List (Nat × UInt8)) (va : Nat), (∀ p ∈ stores, p.1 ≠ va) →
    lastStore stores va = none
  | [], _, _ => rfl
  | (a, b) :: stores, va, h => by
    rw [lastStore, lastStore_of_not_mem stores va (fun p hp => h p (mem_cons_of_mem _ hp))]
    exact if_neg (h (a, b) mem_cons_self)

theorem svTranslate_eq {s : Vm} {R : List Nat} (h : Shape s R) {a va : Nat} (ha : a ∈ R) (hva : va / 4096 < userPages)
    (wp : Bool) : svTranslate wp s a va true = match s.leaf a (va / 4096) with
      | none => .fault false
      | some e => if !wp || e.rw then .ok e.frame else .fault true := by
  unfold svTranslate
  rw [walk_eq h ha hva (fun e he => by simp only [he.2.2.1, Bool.or_true])]
  cases s.leaf a (va / 4096) <;> rfl

section CopyOut

variable {R : List Nat} {a : Nat}

/-- **The bytes a copy-out leaves**, when every address is mapped: the last one stored at each address, in the frame the
page is on, whether or not the page is read-only.  Nothing else changes. -/
theorem copyOut_mem (low : Nat) (ha : a ∈ R) : ∀ (stores : List (Nat × UInt8)) (s : Vm), Shape s R →
    (∀ p ∈ stores, p.1 / 4096 < userPages ∧ s.leaf a (p.1 / 4096) ≠ none) → let r := copyOut false a stores s low
    Shape r.1 R ∧ r.2 = some low ∧ (∀ c ∈ R, ∀ w, r.1.leaf c w = s.leaf c w) ∧ r.1.pmm = s.pmm ∧
    (∀ v < userPages, ∀ e, s.leaf a v = some e → ∀ o < 4096, r.1.mem e.frame o =
      (lastStore stores (v * 4096 + o)).getD (s.mem e.frame o)) ∧
    (∀ f o, (4096 ≤ o ∨ ∀ v < userPages, ∀ e, s.leaf a v = some e → e.frame ≠ f) → r.1.mem f o = s.mem f o)
  | [], s, h, _ => ⟨h, rfl, fun _ _ _ => rfl, rfl, fun _ _ _ _ _ _ => rfl, fun _ _ _ => rfl⟩
  | (va, b) :: stores, s, h, hall => by
    obtain ⟨hv, hne⟩ := hall (va, b) mem_cons_self
    obtain ⟨e, he⟩ := ne_none_iff_exists'.1 hne
    simp only at hv he
    have hst : kernelStore false s a va b low = (s.setByte e.frame (va % 4096) b, some low) := by
      unfold kernelStore
      rw [svTranslate_eq h ha hv, he]
      simp only [Bool.not_false, Bool.true_or, if_true]
    have heq : copyOut false a ((va, b) :: stores) s low = copyOut false a stores (s.setByte e.frame (va % 4096) b) low := by
      rw [copyOut, hst]
    obtain ⟨hsh, hl⟩ := h.setByte (o := va % 4096) (b := b) ha hv he
    obtain ⟨ih1, ih2, ih3, ih4, ih5, ih6⟩ := copyOut_mem low ha stores _ hsh (fun p hp => by
      rw [hl a ha]; exact hall p (mem_cons_of_mem _ hp))
    rw [heq]
    refine ⟨ih1, ih2, fun c hc w => (ih3 c hc w).trans (hl c hc w), ih4, fun v hvu e' he' o ho => ?_, fun f o hfo => ?_⟩
    · rw [ih5 v hvu e' (by rw [hl a ha]; exact he') o ho, lastStore]
      cases hls : lastStore stores (v * 4096 + o) with
      | some x => rfl
      | none =>
        simp only [getD_none]
        by_cases hva : va = v * 4096 + o
        · obtain rfl : v = va / 4096 := by omega
          obtain rfl : e = e' := by rw [he] at he'; exact some.inj he'
          have ho' : o = va % 4096 := by omega
          rw [if_pos hva, setByte, mem_setFrame, if_pos ho', getD_some]
        rw [if_neg hva, getD_none]
        by_cases hfr : e'.frame = e.frame
        · have hvv : v = va / 4096 := h.leafInj a ha v hvu _ hv e' e he' he hfr
          rw [hfr, setByte, mem_setFrame, if_neg (by omega)]
        · rw [setByte, mem_setFrame_ne hfr]
    · rw [ih6 f o (hfo.imp_right (fun hx v hvu e' he' => hx v hvu e' (by rw [← hl a ha]; exact he')))]
      by_cases hfr : f = e.frame
      · subst hfr
        rcases hfo with hfo | hfo
        · rw [setByte, mem_setFrame, if_neg (by omega)]
        · exact absurd rfl (hfo _ hv e he)
      · rw [setByte, mem_setFrame_ne hfr]

end CopyOut

/-! ## Address spaces and counts stay in order -/

section Intact

variable {s : Vm} {R : List Nat} {a : Nat}

theorem kernelStore_failed (wp : Bool) (s : Vm) (a va : Nat) (b : UInt8) (low : Nat)
    (h : (kernelStore wp s a va b low).1.pmm.failed = false) : s.pmm.failed = false := by
  unfold kernelStore at h
  split at h
  · exact h
  next p _ =>
  apply vmmPageFaultHandler_failed s a va p true low
  split at h
  · next s1 hs1 => rw [hs1]; exact h
  · next s1 low1 hs1 =>
    rw [hs1]
    split at h <;> exact h

/-- **A kernel store under `PML4[0]`** lands in the frame of a user page, after growing the stack if need be. -/
theorem Sound.kernelStore (h : Sound s R) (ha : a ∈ R) {va : Nat} (hva : va / 4096 < userPages) {b : UInt8} {low : Nat}
    (hok : (kernelStore false s a va b low).1.pmm.failed = false) : Sound (kernelStore false s a va b low).1 R := by
  unfold Noxis.kernelStore at hok ⊢
  rw [svTranslate_eq h.shape ha hva] at hok ⊢
  cases he : s.leaf a (va / 4096) with
  | some e =>
    simp only [Bool.not_false, Bool.true_or, if_true]
    exact h.setByte ha hva he
  | none =>
    rw [he] at hok
    simp only at hok ⊢
    rw [handler_missing h.shape ha] at hok ⊢
    by_cases hwin : stackWindow va low = true
    swap
    · simp only [hwin, Bool.false_eq_true, if_false]
      exact h
    by_cases h0 : s.allocFrame.1 = 0
    · simp only [hwin, h0, if_true] at hok
      have hz : s.allocFrame.2.pmm.failed = true := pmmAllocFrame_eq_zero s.pmm h0
      rw [hz] at hok
      cases hok
    simp only [hwin, h0, if_true, if_false] at hok ⊢
    have hdiv : va / 4096 * 4096 / 4096 = va / 4096 := by omega
    generalize hs2 : (vmmMapPageInto (s.allocFrame.2.setFrame s.allocFrame.1 (fun _ => 0)) a (va / 4096 * 4096)
      s.allocFrame.1 (PAGE_RW ||| PAGE_USER)).1 = s2 at *
    have hok2 : s2.pmm.failed = false := by split at hok <;> exact hok
    have hok1 : s.allocFrame.2.pmm.failed = false :=
      vmmMapPageInto_failed (s.allocFrame.2.setFrame s.allocFrame.1 (fun _ => 0)) a _ _ _ (by rw [hs2]; exact hok2)
    obtain ⟨-, htook⟩ := took_allocFrame hok1 (fun _ => 0)
    have hva' : va / 4096 * 4096 / 4096 < userPages := by rw [hdiv]; exact hva
    have hs := map_fresh h.shape h.counted ha hva' htook (mem_setFrame) (by rw [hs2]; exact hok2)
    rw [hs2, hdiv] at hs
    rw [svTranslate_eq hs.shape ha hva, hs.leaf]
    simp only [Bool.not_false, Bool.true_or, if_true]
    have hset := Sound.setByte (o := va % 4096) (b := b) ⟨hs.shape, hs.counted⟩ ha hva hs.leaf
    exact hset

theorem Intact.kernelStore (h : Intact R s) (ha : a ∈ R) {va : Nat} (hva : va / 4096 < userPages) (b : UInt8) (low : Nat) :
    Intact R (kernelStore false s a va b low).1 := by
  cases hf : (Noxis.kernelStore false s a va b low).1.pmm.failed with
  | true => exact .inl hf
  | false => exact .inr ((h.sound (kernelStore_failed _ _ _ _ _ _ hf)).kernelStore ha hva hf)

theorem Intact.copyOut (ha : a ∈ R) : ∀ (stores : List (Nat × UInt8)) (s : Vm) (low : Nat), Intact R s →
    (∀ p ∈ stores, p.1 / 4096 < userPages) → Intact R (copyOut false a stores s low).1
  | [], _, _, h, _ => h
  | (va, b) :: stores, s, low, h, hall => by
    have h1 := h.kernelStore ha (hall (va, b) mem_cons_self) b low
    rw [Noxis.copyOut]
    cases hr : Noxis.kernelStore false s a va b low with | mk s1 o =>
    rw [hr] at h1
    cases o with
    | none => exact h1
    | some low1 => exact Intact.copyOut ha stores s1 low1 h1 (fun p hp => hall p (mem_cons_of_mem _ hp))

end Intact

/-! ## What another address space sees -/

theorem userPages_of_lt {va : Nat} (h : va < 2 ^ 39) : va / 4096 < userPages := by
  unfold userPages
  omega

def SharedPage (s : Vm) (a b v : Nat) : Prop :=
  ∃ e w e', s.leaf a v = some e ∧ w < userPages ∧ s.leaf b w = some e' ∧ e'.frame = e.frame

/-- Every byte `stores` leaves in a page of `a` that `b` shares is the byte that was there. -/
def StoresNothingNew (s : Vm) (a b : Nat) (stores : List (Nat × UInt8)) : Prop :=
  ∀ va byte, lastStore stores va = some byte → SharedPage s a b (va / 4096) →
    ∀ e, s.leaf a (va / 4096) = some e → byte = s.mem e.frame (va % 4096)

/-- **What another address space sees of a copy-out.** -/
theorem copyOut_view_iff {s : Vm} {R : List Nat} (h : Shape s R) {sp sp' : Space} (ha : sp.pml4 ∈ R) (hb : sp'.pml4 ∈ R)
    (stores : List (Nat × UInt8)) (hall : ∀ p ∈ stores, p.1 < 2 ^ 39 ∧ s.leaf sp.pml4 (p.1 / 4096) ≠ none) :
    view (copyOut false sp.pml4 stores s sp.stackLow).1 sp' = view s sp' ↔ StoresNothingNew s sp.pml4 sp'.pml4 stores := by
  obtain ⟨-, -, hleaf, -, hmem, hout⟩ := copyOut_mem sp.stackLow ha stores s h
    (fun p hp => ⟨userPages_of_lt (hall p hp).1, (hall p hp).2⟩)
  generalize (copyOut false sp.pml4 stores s sp.stackLow).1 = s' at *
  constructor
  · rintro hv va byte hlast ⟨e, w, e', he, hw, he', hfr⟩ e1 he1
    obtain rfl : e = e1 := by rw [he] at he1; exact some.inj he1
    have hva : va / 4096 < userPages := by
      by_contra hge
      exact absurd (hlast.symm.trans (lastStore_of_not_mem stores va (fun p hp hpe =>
        hge (hpe ▸ userPages_of_lt (hall p hp).1)))) (by simp)
    have hpg := congrFun (congrArg View.page hv) w
    simp only [view, if_pos hw, page, hleaf _ hb, he', map_some, some.injEq, hfr] at hpg
    have := hmem _ hva e he (va % 4096) (Nat.mod_lt _ (by decide))
    rw [hpg, show va / 4096 * 4096 + va % 4096 = va by omega, hlast, getD_some] at this
    exact this.symm
  · intro hnew
    apply view_congr
    intro w hw
    rw [page, page, hleaf _ hb]
    cases he' : s.leaf sp'.pml4 w with
    | none => rfl
    | some e' =>
      simp only [map_some, some.injEq]
      funext o
      by_cases ho : o < 4096
      · by_cases hsh : ∃ v < userPages, ∃ e, s.leaf sp.pml4 v = some e ∧ e.frame = e'.frame
        · obtain ⟨v, hv, e, he, hfr⟩ := hsh
          have hdiv : (v * 4096 + o) / 4096 = v := by omega
          rw [← hfr, hmem v hv e he o ho]
          cases hlast : lastStore stores (v * 4096 + o) with
          | none => rfl
          | some byte =>
            have := hnew _ byte hlast ⟨e, w, e', by rw [hdiv]; exact he, hw, he', hfr.symm⟩ e (by rw [hdiv]; exact he)
            rw [show (v * 4096 + o) % 4096 = o by omega] at this
            exact this
        · exact hout _ o (.inr (fun v hv e he hx => hsh ⟨v, hv, e, he, hx⟩))
      · exact hout _ o (.inl (by omega))

/-! ## After a fork -/

/-- **Kernel stores and fork isolation.**  In every state reached by forks, user accesses and teardowns, a system call that
stores into mapped pages of its caller is invisible in another address space exactly when every byte it leaves in a page
the two share was there already. -/
theorem kernel_stores_isolated_iff (powerOn : BitVec 64) (hwp : writeProtect powerOn = false) (m : Machine) (hm : Setup m)
    (ops : List Op) (hrun : Always (Machine.step vmmCowUserSpace) (Machine.Within (· ≤ 255)) m ops) (i j : Nat)
    (sp sp' : Space) (hi : (run (Machine.step vmmCowUserSpace) m ops).1.spaces[i]? = some (some sp))
    (hj : (run (Machine.step vmmCowUserSpace) m ops).1.spaces[j]? = some (some sp')) (c : CopyOut)
    (hmapped : ∀ p ∈ c.stores, p.1 < 2 ^ 39 ∧
      (run (Machine.step vmmCowUserSpace) m ops).1.vm.leaf sp.pml4 (p.1 / 4096) ≠ none) :
    view (copyOut (writeProtect (kernelCr0 powerOn)) sp.pml4 c.stores
      (run (Machine.step vmmCowUserSpace) m ops).1.vm sp.stackLow).1 sp' =
        view (run (Machine.step vmmCowUserSpace) m ops).1.vm sp' ↔
      StoresNothingNew (run (Machine.step vmmCowUserSpace) m ops).1.vm sp.pml4 sp'.pml4 c.stores := by
  have hgood := (run_refines (step_refines vmmCowUserSpace_forks) ops m (hm.good hrun.head.1) hrun).1
  rw [kernelCr0_wp powerOn hwp]
  exact copyOut_view_iff hgood.1 (mem_roots hi) (mem_roots hj) c.stores hmapped

theorem fork_shares {m : Machine} (h : m.Good) {i : Nat} {sp : Space} (hi : m.spaces[i]? = some (some sp))
    (hok : (m.fork vmmCowUserSpace i).vm.pmm.failed = false) : let r := m.fork vmmCowUserSpace i
    ∃ d, r.spaces = m.spaces ++ [some ⟨d, sp.stackLow⟩] ∧ Shape r.vm (d :: roots m.spaces) ∧
      ∀ v < userPages, r.vm.leaf sp.pml4 v = (m.vm.leaf sp.pml4 v).map demote ∧
        r.vm.leaf d v = (m.vm.leaf sp.pml4 v).map demote ∧ r.vm.page sp.pml4 v = m.vm.page sp.pml4 v := by
  obtain ⟨s1, d, htook, hshape1, hcount1, had, hempty, hok2, heq⟩ := fork_eq vmmCowUserSpace_forks h hi hok
  have ha := mem_roots hi
  have ha1 := mem_cons_of_mem d ha
  have hd1 : d ∈ d :: roots m.spaces := mem_cons_self
  obtain ⟨-, hcow⟩ := vmmCowUserSpace_spec hshape1 ha1 hd1 had hempty hok2
  obtain ⟨-, -, -, hpage, -⟩ := vmmCowUserSpace_forks.spec s1 _ _ _ hshape1 hcount1 ha1 hd1 had hempty hok2
  rw [heq]
  refine ⟨d, rfl, hcow.shape, fun v hv => ?_⟩
  simp only
  rw [hcow.leafSrc v hv, hcow.leafDst v hv, if_pos hv, if_pos hv, htook.leaf h.1 ha v, hpage _ ha1 had v hv]
  refine ⟨rfl, rfl, page_congr (htook.leaf h.1 ha v) (fun e he => ?_)⟩
  exact htook.mem _ (htook.ne (h.1.leafHeld _ ha v hv e he).used)

/-- CR0 of a processor that comes out of reset: CD, NW and ET. -/
def resetCr0 : BitVec 64 := 0x60000010

theorem onePage_fork : Always (step vmmCowUserSpace) (Machine.Within (· ≤ 255)) onePage [.fork 0] ∧
    let m := (run (step vmmCowUserSpace) onePage [.fork 0]).1
    ∃ sp sp' e, m.spaces = [some sp, some sp'] ∧ Shape m.vm [sp'.pml4, sp.pml4] ∧ m.vm.leaf sp.pml4 0 = some e ∧
      m.vm.leaf sp'.pml4 0 = some e ∧ m.vm.mem e.frame = fun _ => 1 := by
  obtain ⟨hsetup, hroom, sp, hsp, hpages, hpage⟩ := onePage_setup
  have hg := hsetup.good hroom.failed
  have hi : onePage.spaces[0]? = some (some sp) := by rw [hsp]; rfl
  have hr1 : Room (onePage.fork vmmCowUserSpace 0).vm.pmm 8 := fork_room vmmCowUserSpace_forks hg hi (hroom.mono (by omega))
  obtain ⟨d, hspaces, hshape, hleaf⟩ := fork_shares hg hi hr1.failed
  have hstep : (onePage.step vmmCowUserSpace (.fork 0)).1 = onePage.fork vmmCowUserSpace 0 := by rw [step_fork _ rfl]
  have hrun : (run (step vmmCowUserSpace) onePage [.fork 0]).1 = onePage.fork vmmCowUserSpace 0 := by
    rw [run_cons, hstep, run]
  have hlen0 : ∀ f, mappers onePage.vm (roots onePage.spaces) f ≤ 255 := fun f => (mappers_le _ _ f).trans (by rw [hsp]; simp)
  rw [hrun]
  generalize onePage.fork vmmCowUserSpace 0 = m1 at *
  rw [hsp] at hspaces hshape
  have hlen : ∀ f, mappers m1.vm (roots m1.spaces) f ≤ 255 :=
    fun f => (mappers_le _ _ f).trans (by rw [hspaces]; simp)
  have hw1 : (onePage.step vmmCowUserSpace (.fork 0)).1.Within (· ≤ 255) := by
    rw [hstep]; exact ⟨hr1.failed, hlen⟩
  refine ⟨Always.cons ⟨hroom.failed, hlen0⟩ (Always.nil hw1), sp, ⟨d, sp.stackLow⟩, ?_⟩
  obtain ⟨hl, hl', hp⟩ := hleaf 0 (by unfold userPages; decide)
  rw [hpage] at hp
  rw [← hl] at hl'
  cases he : m1.vm.leaf sp.pml4 0 with
  | none => rw [page, he] at hp; cases hp
  | some e =>
    rw [page, he] at hp
    exact ⟨e, hspaces, hshape, rfl, hl'.trans he, some.inj hp⟩

theorem kernel_stores_isolated_iff_onePage : ∃ sp sp',
    (run (Machine.step vmmCowUserSpace) onePage [.fork 0]).1.spaces = [some sp, some sp'] ∧
    (view (copyOut (writeProtect (kernelCr0 resetCr0)) sp.pml4 (CopyOut.waitpid 4 7).stores
      (run (Machine.step vmmCowUserSpace) onePage [.fork 0]).1.vm sp.stackLow).1 sp' =
        view (run (Machine.step vmmCowUserSpace) onePage [.fork 0]).1.vm sp' ↔
      StoresNothingNew (run (Machine.step vmmCowUserSpace) onePage [.fork 0]).1.vm sp.pml4 sp'.pml4
        (CopyOut.waitpid 4 7).stores) := by
  obtain ⟨hrun, sp, sp', e, hspaces, -, hl, -, -⟩ := onePage_fork
  refine ⟨sp, sp', hspaces, kernel_stores_isolated_iff resetCr0 (by decide) onePage onePage_setup.1 [.fork 0] hrun 0 1 sp sp'
    (by rw [hspaces]; rfl) (by rw [hspaces]; rfl) (CopyOut.waitpid 4 7) (fun p hp => ?_)⟩
  have hlt : p.1 < 8 := (by decide : ∀ p ∈ (CopyOut.waitpid 4 7).stores, p.1 < 8) p hp
  rw [show p.1 / 4096 = 0 by omega, hl]
  exact ⟨by omega, by simp⟩

/-- **A status stored for the parent shows up in the child.**  `sys_waitpid` stores 7 at address 4, in the page that the
fork has just shared. -/
theorem kernel_store_seen_by_child : Setup onePage ∧
    Always (Machine.step vmmCowUserSpace) (Machine.Within (· ≤ 255)) onePage [.fork 0] ∧ ∃ sp sp',
    (run (Machine.step vmmCowUserSpace) onePage [.fork 0]).1.spaces = [some sp, some sp'] ∧
    SharedPage (run (Machine.step vmmCowUserSpace) onePage [.fork 0]).1.vm sp.pml4 sp'.pml4 0 ∧
    writeProtect resetCr0 = false ∧ view (copyOut (writeProtect (kernelCr0 resetCr0)) sp.pml4 (CopyOut.waitpid 4 7).stores
      (run (Machine.step vmmCowUserSpace) onePage [.fork 0]).1.vm sp.stackLow).1 sp' ≠
        view (run (Machine.step vmmCowUserSpace) onePage [.fork 0]).1.vm sp' := by
  obtain ⟨hrun, sp, sp', e, hspaces, hshape, hl, hl', hmem⟩ := onePage_fork
  have hsh : SharedPage (run (step vmmCowUserSpace) onePage [.fork 0]).1.vm sp.pml4 sp'.pml4 0 :=
    ⟨e, 0, e, hl, by unfold userPages; decide, hl', rfl⟩
  refine ⟨onePage_setup.1, hrun, sp, sp', hspaces, hsh, by decide, fun hview => ?_⟩
  rw [kernelCr0_wp _ (by decide), copyOut_view_iff hshape (mem_cons_of_mem _ (mem_singleton.2 rfl)) mem_cons_self] at hview
  · have h7 := hview 4 7 (by decide) hsh e hl
    rw [hmem] at h7
    exact absurd h7 (by decide)
  · intro p hp
    have hlt : p.1 < 8 := (by decide : ∀ p ∈ (CopyOut.waitpid 4 7).stores, p.1 < 8) p hp
    rw [show p.1 / 4096 = 0 by omega, hl]
    exact ⟨by omega, by simp⟩

end Noxis
