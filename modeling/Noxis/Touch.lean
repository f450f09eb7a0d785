import Noxis.Sharers
/-!
# Touch — the order in which a program touches its stack

`vmm_page_fault_handler` maps a missing stack page only below `stack_low`, and then lowers `stack_low` to it.  The one mark
stands for the set of pages mapped so far, which it describes only when they were touched from the top down: a page left out
on the way is above the mark, and the fault on it is fatal.  `stack_touches_served_iff` says which orders are served.
-/
namespace Noxis

open List

def USTACK_TOP : Nat := USTACK_BASE + 0x1000

def Kernel.touch (i : Nat) (k : Kernel) (x : Nat × Option UInt8) : Kernel × Ret := k.step (i, .access x.1 x.2)

def touched (x : Nat × Option UInt8) : Nat := x.1 / 4096

def Kernel.Maps (k : Kernel) (i v : Nat) : Prop := ∃ p e, k.procs[i]? = some p ∧ k.vm.leaf p.pml4 v = some e

/-- The access goes through, and a page that was not there is mapped for it, user-writable and full of zeroes. -/
def Served (i : Nat) (k : Kernel) (x : Nat × Option UInt8) : Prop :=
  (k.touch i x).2 ≠ .halt ∧ ∀ p, k.procs[i]? = some p → k.vm.leaf p.pml4 (touched x) = none →
    ∃ s low e, userAccess k.vm p.pml4 x.1 x.2.isSome p.stackLow = (s, some (low, e.frame)) ∧
      s.leaf p.pml4 (touched x) = some e ∧ e.user = true ∧ e.rw = true ∧ s.mem e.frame = fun _ => 0

/-- Page `v` is mapped from the start (`M`), has been touched, or is below the first page of the stack and below every page
the touches before it have mapped. -/
def Downward (M : Nat → Prop) (pre : List Nat) (v : Nat) : Prop :=
  M v ∨ v ∈ pre ∨ (v < USTACK_BASE / 4096 ∧ ∀ w ∈ pre, M w ∨ v < w)

/-! ## One touch -/

section Step

variable {k : Kernel} {i : Nat} {cur : Process}

theorem leaf_isSome_page (s : Vm) (a v : Nat) : (s.leaf a v).isSome = (s.page a v).isSome := by
  unfold Vm.page
  rw [Option.isSome_map]

/-- A running process after a touch: `low` is its new `stack_low`. -/
structure Touched (k k' : Kernel) (i : Nat) (cur : Process) (v low n : Nat) : Prop where
  sound : k'.Sound
  running : k'.halted = false
  proc : k'.procs[i]? = some { cur with stackLow := low }
  room : Room k'.vm.pmm n
  maps : ∀ w < userPages, (k'.vm.leaf cur.pml4 w).isSome = (decide (w = v) || (k.vm.leaf cur.pml4 w).isSome)

theorem touch_spec {n : Nat} (hs : k.Sound) (hrun : k.halted = false) (hi : k.procs[i]? = some cur) (hz : cur.zombie = false)
    (hroom : Room k.vm.pmm (n + 4)) (x : Nat × Option UInt8) (hx : x.1 < 2 ^ 39) :
    match accessPage (k.vm.page cur.pml4 (touched x)) x.1 cur.stackLow with
    | none => (k.touch i x).2 = .halt
    | some (low, p) => (k.touch i x).2 ≠ .halt ∧ Touched k (k.touch i x).1 i cur (touched x) low n ∧
        ∃ s e, userAccess k.vm cur.pml4 x.1 x.2.isSome cur.stackLow = (s, some (low, e.frame)) ∧
          s.leaf cur.pml4 (touched x) = some e ∧ e.user = true ∧ s.mem e.frame = p ∧
          (k.vm.leaf cur.pml4 (touched x) = none → e.rw = true) := by
  obtain ⟨va, w⟩ := x
  have ha := mem_kernelRoots hi
  have hv : va / 4096 < userPages := by
    unfold userPages
    omega
  have hlt : i < k.procs.length := (List.getElem?_eq_some_iff.1 hi).1
  have hr := userAccess_room hs.shape ha va cur.stackLow w.isSome hroom
  have hspec := userAccess_spec hs.shape hs.counted ha hx w.isSome cur.stackLow hr.failed
  have htouch : k.touch i (va, w) = userMode k i cur va w := by
    unfold Kernel.touch Kernel.step
    simp only [hrun, Bool.false_eq_true, if_false, hi, hz]
    rfl
  rw [htouch]
  unfold touched
  dsimp only at hspec ⊢
  cases hap : accessPage (k.vm.page cur.pml4 (va / 4096)) va cur.stackLow with
  | none =>
    simp only [hap] at hspec
    unfold userMode
    rw [hspec]
  | some r =>
    obtain ⟨low, p⟩ := r
    simp only [hap] at hspec
    obtain ⟨s', e, hacc, hsh, hrw⟩ := hspec
    have huser := (hsh.shape.leafFlags _ ha _ hv e hsh.leaf).1
    rw [hacc] at hr
    have hmaps : ∀ w < userPages, (s'.leaf cur.pml4 w).isSome = (decide (w = va / 4096) || (k.vm.leaf cur.pml4 w).isSome) := by
      intro w hw
      by_cases hwv : w = va / 4096
      · subst hwv
        rw [hsh.leaf]
        simp
      · rw [leaf_isSome_page, hsh.page _ ha w hw (fun hc => hwv hc.2), ← leaf_isSome_page]
        simp [hwv]
    have hsound : Sound s' k.roots := ⟨hsh.shape, hsh.counted⟩
    have hproc : (k.procs.set i { cur with stackLow := low })[i]? = some { cur with stackLow := low } := by
      rw [List.getElem?_set_self hlt]
    simp only
    cases w with
    | none =>
      have heq : userMode k i cur va none =
          ({ k with vm := s', procs := k.procs.set i { cur with stackLow := low } }, .byte (s'.mem e.frame (va % 4096))) := by
        unfold userMode
        rw [hacc]
      rw [heq]
      exact ⟨by simp, ⟨sound_set hsound hi rfl, hrun, hproc, hr, hmaps⟩, s', e, hacc, hsh.leaf, huser, hsh.self,
        fun hn => hrw (.inr hn)⟩
    | some b =>
      have heq : userMode k i cur va (some b) = ({ k with
          vm := s'.setByte e.frame (va % 4096) b, procs := k.procs.set i { cur with stackLow := low } }, .value 0) := by
        unfold userMode
        rw [hacc]
      have hset := setByte_spec (o := va % 4096) (b := b) hsh.shape hsh.counted ha hv hsh.leaf (hrw (.inl rfl))
      rw [heq]
      refine ⟨by simp, ⟨sound_set (hsound.setByte ha hv hsh.leaf) hi rfl, hrun, hproc, hr, fun w hw => ?_⟩, s', e, hacc, hsh.leaf,
        huser, hsh.self, fun hn => hrw (.inr hn)⟩
      rw [← hmaps w hw]
      by_cases hwv : w = va / 4096
      · subst hwv
        rw [hset.leaf, hsh.leaf]
      · rw [leaf_isSome_page, hset.page _ ha w hw (fun hc => hwv hc.2), ← leaf_isSome_page]

end Step

/-! ## A run of touches -/

/-- After touches of the pages `pre`: the mark is at the lowest page they mapped, and the pages mapped are those of the start
and those touched. -/
structure Growing (p : Process) (i : Nat) (M : Nat → Prop) (pre : List Nat) (n : Nat) (k : Kernel) : Prop where
  sound : k.Sound
  running : k.halted = false
  room : Room k.vm.pmm n
  maps : ∀ w < userPages, (k.vm.leaf p.pml4 w).isSome = true ↔ M w ∨ w ∈ pre
  mark : ∃ low, k.procs[i]? = some { p with stackLow := low * 4096 } ∧
    (low = USTACK_BASE / 4096 ∨ (low < USTACK_BASE / 4096 ∧ low ∈ pre ∧ ¬ M low)) ∧ ∀ w ∈ pre, M w ∨ low ≤ w

section Run

variable {k : Kernel} {i n : Nat} {p : Process} {M : Nat → Prop} {pre : List Nat} {x : Nat × Option UInt8}

theorem stackWindow_iff (low : Nat) {va : Nat} (h1 : USTACK_LIMIT ≤ va) : stackWindow va (low * 4096) = true ↔ va / 4096 < low := by
  unfold stackWindow
  rw [show USTACK_LIMIT = 327617 * 4096 from rfl] at h1 ⊢
  simp only [Bool.and_eq_true, decide_eq_true_eq]
  omega

theorem downward_iff_lt (hM : ¬ M (touched x)) (hpre : touched x ∉ pre) {low : Nat}
    (hlow : low = USTACK_BASE / 4096 ∨ (low < USTACK_BASE / 4096 ∧ low ∈ pre ∧ ¬ M low)) (hle : ∀ w ∈ pre, M w ∨ low ≤ w) :
    Downward M pre (touched x) ↔ touched x < low := by
  constructor
  · rintro (h | h | ⟨hb, hall⟩)
    · exact absurd h hM
    · exact absurd h hpre
    · rcases hlow with rfl | ⟨-, hmem, hnot⟩
      · exact hb
      · exact (hall low hmem).resolve_left hnot
  · intro hlt
    refine .inr (.inr ⟨?_, fun w hw => (hle w hw).imp_right fun h => by omega⟩)
    rcases hlow with rfl | ⟨hb, -, -⟩ <;> omega

section

variable (h : Growing p i M pre (n + 4) k) (hz : p.zombie = false) (h1 : USTACK_LIMIT ≤ x.1) (h2 : x.1 < USTACK_TOP)
include h hz h1 h2

/-- **An access is served exactly when it is downward.** -/
theorem Growing.served_iff : Served i k x ↔ Downward M pre (touched x) := by
  obtain ⟨low, hproc, hlow, hle⟩ := h.mark
  have hx : x.1 < 2 ^ 39 := h2.trans (by decide)
  have hv : touched x < userPages := by unfold touched userPages; omega
  have hspec := touch_spec h.sound h.running hproc hz h.room x hx
  have hmaps := h.maps (touched x) hv
  dsimp only at hspec
  unfold Vm.page at hspec
  cases hleaf : k.vm.leaf p.pml4 (touched x) with
  | some e =>
    rw [hleaf] at hmaps hspec
    have hd : Downward M pre (touched x) := (hmaps.1 rfl).elim .inl fun hm => .inr (.inl hm)
    refine ⟨fun _ => hd, fun _ => ⟨hspec.1, fun q hq hnone => ?_⟩⟩
    rw [hproc] at hq
    obtain rfl := Option.some.inj hq
    rw [hleaf] at hnone
    cases hnone
  | none =>
    rw [hleaf] at hmaps hspec
    have hnot : ¬ (M (touched x) ∨ touched x ∈ pre) := fun hc => by cases hmaps.2 hc
    rw [not_or] at hnot
    rw [downward_iff_lt hnot.1 hnot.2 hlow hle]
    have hwin := stackWindow_iff low h1
    unfold accessPage at hspec
    dsimp only [Option.map_none] at hspec
    cases hb : stackWindow x.1 (low * 4096) with
    | false =>
      rw [hb] at hspec hwin
      refine ⟨fun hs => absurd hspec hs.1, fun hlt => ?_⟩
      cases hwin.2 hlt
    | true =>
      rw [hb] at hspec hwin
      simp only [if_true] at hspec
      obtain ⟨hret, -, s, e, hacc, he, huser, hself, hrw⟩ := hspec
      refine ⟨fun _ => hwin.1 rfl, fun _ => ⟨hret, fun q hq _ => ?_⟩⟩
      rw [hproc] at hq
      obtain rfl := Option.some.inj hq
      exact ⟨s, _, e, hacc, he, huser, hrw trivial, hself⟩

theorem Growing.step (hd : Downward M pre (touched x)) : Growing p i M (pre ++ [touched x]) n (k.touch i x).1 := by
  obtain ⟨low, hproc, hlow, hle⟩ := h.mark
  have hx : x.1 < 2 ^ 39 := h2.trans (by decide)
  have hv : touched x < userPages := by unfold touched userPages; omega
  have hspec := touch_spec h.sound h.running hproc hz h.room x hx
  have hmaps := h.maps (touched x) hv
  dsimp only at hspec
  unfold Vm.page at hspec
  have hnew : ∀ k' low', Touched k k' i { p with stackLow := low * 4096 } (touched x) low' n → ∀ w < userPages,
      (k'.vm.leaf p.pml4 w).isSome = true ↔ M w ∨ w ∈ pre ++ [touched x] := fun k' low' ht w hw => by
    have hm := ht.maps w hw
    dsimp only at hm
    rw [hm, Bool.or_eq_true, decide_eq_true_eq, h.maps w hw, mem_append, mem_singleton, or_comm, or_assoc]
  cases hleaf : k.vm.leaf p.pml4 (touched x) with
  | some e =>
    rw [hleaf] at hspec hmaps
    obtain ⟨-, ht, -⟩ := hspec
    refine ⟨ht.sound, ht.running, ht.room, hnew _ _ ht, low, ht.proc, ?_, fun w hw => ?_⟩
    · rcases hlow with hl | ⟨hl, hmem, hnot⟩
      · exact .inl hl
      · exact .inr ⟨hl, mem_append_left _ hmem, hnot⟩
    · rcases mem_append.1 hw with hw | hw
      · exact hle w hw
      · rw [mem_singleton.1 hw]
        rcases hmaps.1 rfl with hm | hm
        · exact .inl hm
        · exact hle _ hm
  | none =>
    rw [hleaf] at hspec hmaps
    have hnot : ¬ (M (touched x) ∨ touched x ∈ pre) := fun hc => by cases hmaps.2 hc
    rw [not_or] at hnot
    have hlt := (downward_iff_lt hnot.1 hnot.2 hlow hle).1 hd
    unfold accessPage at hspec
    dsimp only [Option.map_none] at hspec
    have hpage : x.1 / 4096 = touched x := rfl
    rw [(stackWindow_iff _ h1).2 hlt, hpage] at hspec
    simp only [if_true] at hspec
    obtain ⟨-, ht, -⟩ := hspec
    -- the mark goes down to the new page
    refine ⟨ht.sound, ht.running, ht.room, hnew _ _ ht, touched x, ht.proc, .inr ⟨?_, ?_, hnot.1⟩, fun w hw => ?_⟩
    · rcases hlow with hl | ⟨hl, -, -⟩
      · rw [← hl]
        exact hlt
      · exact hlt.trans hl
    · exact mem_append_right _ (mem_singleton.2 rfl)
    · rcases mem_append.1 hw with hw | hw
      · exact (hle w hw).imp_right fun hl => by omega
      · rw [mem_singleton.1 hw]
        exact .inr (le_refl _)

end

/-- **A process as `sys_exec` leaves it**, with nothing touched yet. -/
theorem exec_growing (hk : k.Sound) {img : Image} (himg : Under img) {argv : List (List UInt8)} (hargv : ArgvFits argv)
    (hexec : (k.step (i, .exec (some img) argv)).2 = .value 0) (hroom : Room (k.step (i, .exec (some img) argv)).1.vm.pmm n) :
    ∃ p, p.zombie = false ∧
      Growing p i ((k.step (i, .exec (some img) argv)).1.Maps i) [] n (k.step (i, .exec (some img) argv)).1 := by
  obtain ⟨hsound, hrun, p, hproc, hz, hlow, -⟩ := exec_started hk himg hargv hexec hroom.failed
  generalize (k.step (i, .exec (some img) argv)).1 = k' at *
  refine ⟨p, hz, hsound, hrun, hroom, fun w _ => ?_, USTACK_BASE / 4096, ?_, .inl rfl, fun w hw => by cases hw⟩
  · constructor
    · intro hs
      obtain ⟨e, he⟩ := Option.isSome_iff_exists.1 hs
      exact .inl ⟨p, e, hproc, he⟩
    · rintro (⟨p', e, hp', he⟩ | hw)
      · rw [hproc] at hp'
        obtain rfl := Option.some.inj hp'
        rw [he]
        rfl
      · cases hw
  · rw [show USTACK_BASE / 4096 * 4096 = USTACK_BASE by decide, ← hlow]
    exact hproc

end Run

/-- **Which orders of touches are served.**  A process that `sys_exec` has just started reads and writes its stack, with
frames available: every access is served exactly when each one is to a page that is mapped already, or to a page below all
those mapped on the way. -/
theorem stack_touches_served_iff (k : Kernel) (hk : k.Sound) (i : Nat) (img : Image) (himg : Under img)
    (argv : List (List UInt8)) (hargv : ArgvFits argv) (hexec : (k.step (i, .exec (some img) argv)).2 = .value 0)
    (xs : List (Nat × Option UInt8)) (hxs : ∀ x ∈ xs, USTACK_LIMIT ≤ x.1 ∧ x.1 < USTACK_TOP)
    (hroom : Room (k.step (i, .exec (some img) argv)).1.vm.pmm (4 * xs.length)) :
    let k' := (k.step (i, .exec (some img) argv)).1
    (∀ pre x post, xs = pre ++ x :: post → Served i (run (Kernel.touch i) k' pre).1 x) ↔
    ∀ pre x post, xs = pre ++ x :: post → Downward (k'.Maps i) (pre.map touched) (touched x) := by
  obtain ⟨p, hz, hstart⟩ := exec_growing hk himg hargv hexec hroom
  intro k'
  have hmem : ∀ pre x post, xs = pre ++ x :: post → USTACK_LIMIT ≤ x.1 ∧ x.1 < USTACK_TOP ∧
      4 * (xs.length - pre.length) = 4 * (xs.length - (pre ++ [x]).length) + 4 := fun pre x post hp => by
    have hx := hxs x (by rw [hp]; exact mem_append_right _ mem_cons_self)
    have hlen := congrArg List.length hp
    simp only [length_append, length_cons, length_nil] at hlen ⊢
    exact ⟨hx.1, hx.2, by omega⟩
  refine run_iff (I := fun pre k => Growing p i (k'.Maps i) (pre.map touched) (4 * (xs.length - pre.length)) k) hstart
    (fun pre x post s hp hI => ?_) (fun pre x post s hp hI hC => ?_)
  · obtain ⟨h1, h2, h3⟩ := hmem pre x post hp
    rw [h3] at hI
    exact hI.served_iff hz h1 h2
  · obtain ⟨h1, h2, h3⟩ := hmem pre x post hp
    rw [h3] at hI
    rw [map_append]
    exact hI.step hz h1 h2 hC

/-! ## A page left out -/

def touchVm : Vm := ⟨fun _ _ => 0, ⟨fun f => decide (f ≤ 1), fun f => if f = 1 then 1 else 0, 48, 46, false⟩, 1⟩

def touchStart : Kernel := ⟨(vmmCreateAddressSpace touchVm).2, [⟨0x1000, 1, 2, USTACK_BASE, 0, 0, false, 0⟩], 2, false⟩

def touchKernel : Kernel := (touchStart.step (0, .exec (some bareImage) [])).1

/-- **A program that touches a low page first cannot touch one above it**: the stack page at `0x4FFF0000` is mapped, and the
page at `0x4FFFF000`, which is in the stack too, is fatal. -/
theorem touch_above_halts : (touchStart.step (0, .exec (some bareImage) [])).2 = .value 0 ∧
    (touchKernel.touch 0 (0x4FFF0000, none)).2 = .byte 0 ∧
    ((touchKernel.touch 0 (0x4FFF0000, none)).1.touch 0 (0x4FFFF000, none)).2 = .halt ∧
    30 < (touchKernel.touch 0 (0x4FFF0000, none)).1.vm.pmm.free := by
  refine ⟨?_, ?_, ?_, ?_⟩ <;> decide +kernel

theorem touchStart_sound : touchStart.Sound := by
  obtain ⟨-, hs, -⟩ := Sound.create (s := touchVm) (R := [])
    ⟨Ready.shape ⟨by decide, ⟨by decide, by decide, by decide⟩⟩, fun f => Nat.zero_le _⟩ (by decide +kernel)
  rw [show (vmmCreateAddressSpace touchVm).1 = 2 by decide +kernel] at hs
  exact hs

/-- The same two pages, touched from the top down. -/
theorem stack_touches_served_iff_two :
    Served 0 touchKernel (0x4FFFF000, none) ∧ Served 0 (touchKernel.touch 0 (0x4FFFF000, none)).1 (0x4FFF0000, some 7) := by
  have h := (stack_touches_served_iff touchStart touchStart_sound 0 bareImage bareImage_under [] ⟨by decide, by decide⟩
    (by decide +kernel)
    [(0x4FFFF000, none), (0x4FFF0000, some 7)] (by decide) ⟨by decide +kernel, by decide +kernel, by decide +kernel⟩).2
    (splits_cons.2 ⟨?_, splits_cons.2 ⟨?_, splits_nil⟩⟩)
  · exact ⟨h [] _ _ rfl, h [(0x4FFFF000, none)] _ _ rfl⟩
  · exact .inr (.inr ⟨by decide, fun w hw => by cases hw⟩)
  · refine .inr (.inr ⟨by decide, fun w hw => .inr ?_⟩)
    rw [map_singleton, mem_singleton] at hw
    rw [hw]
    decide

end Noxis
