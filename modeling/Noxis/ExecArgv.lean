import Noxis.CStr
import Noxis.ElfLoad
import Noxis.KernelHalf
import Noxis.Reused
/-!
# ExecArgv — what `sys_exec` puts on the new stack

`sys_exec` copies the strings of `argv` to the top of the stack page, the last one on top, and the pointers, NULL and `argc`
below them.  It counts no further than `MAX_ARGS`, and the offset it counts down is never checked: with more strings the rest
is dropped, and with longer ones it wraps and the stores leave the page.  `ArgvView` is what `_start` of `crt0.asm` finds at the
stack pointer; `exec_argv_iff` says when that is `argv`.
-/
namespace Noxis

open List Option Radix Nat

/-! ## Stores into a page -/

def pokeAll (p : Nat → UInt8) (stores : List (Nat × UInt8)) : Nat → UInt8 :=
  stores.foldl (fun p q x => if x = q.1 then q.2 else p x) p

theorem pokeAll_append (p : Nat → UInt8) (l l' : List (Nat × UInt8)) : pokeAll p (l ++ l') = pokeAll (pokeAll p l) l' :=
  foldl_append

theorem pokeAll_fill : ∀ (bytes : List UInt8) (p : Nat → UInt8) (o : Nat), pokeAll p (fill o bytes) = place p o bytes
  | [], p, o => by
    funext x
    exact (place_outside (by rw [length_nil]; omega)).symm
  | b :: bytes, p, o => by
    have ih := pokeAll_fill bytes (fun x => if x = o then b else p x) (o + 1)
    show pokeAll (fun x => if x = o then b else p x) (fill (o + 1) bytes) = _
    rw [ih]
    funext x
    unfold place
    rw [length_cons]
    dsimp only
    by_cases hx : x = o
    · rw [if_neg (by omega), if_pos hx, if_pos (by omega), hx, Nat.sub_self]
      rfl
    · by_cases hin : o + 1 ≤ x ∧ x < o + 1 + bytes.length
      · rw [if_pos hin, if_pos (by omega), show x - o = x - (o + 1) + 1 by omega]
        rfl
      · rw [if_neg hin, if_neg hx, if_neg (by omega)]

theorem leRead_of_lies {p : Nat → UInt8} {o x : Nat} (h : Lies p o (wordBytes x)) (hx : x < 2 ^ 64) : leRead p o 8 = x := by
  have hsame : leRead p o 8 = leRead (leWrite (fun _ => 0) o 8 x) o 8 := by
    refine leRead_congr _ _ 8 o (fun y h1 h2 => ?_)
    have hy := h (y - o) (by rw [show (wordBytes x).length = 8 from rfl]; omega)
    rw [show o + (y - o) = y by omega] at hy
    rw [hy]
    unfold wordBytes leWrite
    rw [if_pos ⟨h1, h2⟩, getElem_map, getElem_range]
  rw [hsame, leRead_leWrite]
  exact mod_eq_of_lt hx

/-! ## The strings -/

def stringBytes (args : List (List UInt8)) : Nat := (args.map (fun a => a.length + 1)).sum

theorem stringBytes_cons (a : List UInt8) (args : List (List UInt8)) :
    stringBytes (a :: args) = a.length + 1 + stringBytes args := by
  unfold stringBytes
  rw [map_cons, sum_cons]

/-- The strings in the page, from `lo` up to `hi`, with their user addresses. -/
structure Strings (p : Nat → UInt8) (args : List (List UInt8)) (addrs : List Nat) (lo hi : Nat) : Prop where
  length : addrs.length = args.length
  found : ∀ i (h : i < args.length), ∃ o, addrs[i]? = some (USTACK_BASE + o) ∧ lo ≤ o ∧ o + args[i].length < hi ∧
    Lies p o (args[i] ++ [0])

theorem Strings.congr {p p' : Nat → UInt8} {args : List (List UInt8)} {addrs : List Nat} {lo hi : Nat}
    (h : Strings p args addrs lo hi) (heq : ∀ x, lo ≤ x → x < hi → p' x = p x) : Strings p' args addrs lo hi := by
  refine ⟨h.length, fun i hi' => ?_⟩
  obtain ⟨o, h1, h2, h3, h4⟩ := h.found i hi'
  refine ⟨o, h1, h2, h3, h4.congr fun k hk => heq _ (by omega) ?_⟩
  rw [length_append, length_singleton] at hk
  omega

/-- **The strings that fit lie below one another.** -/
theorem pushStrings_spec (p : Nat → UInt8) : ∀ (args : List (List UInt8)) (off : Nat), off ≤ 4096 → stringBytes args ≤ off →
    (pushStrings args off).2.1 = off - stringBytes args ∧
    Strings (pokeAll p (pushStrings args off).1) args (pushStrings args off).2.2 (off - stringBytes args) off
  | [], off, _, _ => ⟨rfl, rfl, fun i hi => absurd hi (not_lt_zero i)⟩
  | a :: rest, off, hoff, hsum => by
    rw [stringBytes_cons] at hsum
    obtain ⟨h1, h2⟩ := pushStrings_spec p rest off hoff (by omega)
    have hsub : subOff (pushStrings rest off).2.1 (a.length + 1) = off - stringBytes (a :: rest) := by
      unfold subOff
      rw [h1, stringBytes_cons]
      omega
    refine ⟨hsub, ?_⟩
    rw [pushStrings]
    dsimp only
    rw [hsub, pokeAll_append, pokeAll_fill, stringBytes_cons]
    generalize hlo : off - (a.length + 1 + stringBytes rest) = lo
    have hlen : (a ++ [(0 : UInt8)]).length = a.length + 1 := by rw [length_append, length_singleton]
    refine ⟨by rw [length_cons, length_cons, h2.length], fun i hi => ?_⟩
    cases i with
    | zero =>
      refine ⟨lo, ?_, le_refl lo, ?_, Lies.place⟩
      · rw [getElem?_cons_zero, mod_eq_of_lt (by unfold USTACK_BASE; omega)]
      · rw [getElem_cons_zero]
        omega
    | succ i =>
      obtain ⟨o, g1, g2, g3, g4⟩ := h2.found i (by rw [length_cons] at hi; omega)
      refine ⟨o, by rw [getElem?_cons_succ]; exact g1, by omega, g3, ?_⟩
      exact g4.place_other (.inr (by rw [hlen]; omega))

theorem mem_fill_first {o : Nat} {b : UInt8} {bytes : List UInt8} : (o, b) ∈ fill o (b :: bytes) := mem_cons_self

theorem mem_fill_last {b : UInt8} : ∀ (bytes : List UInt8) (o : Nat), (o + bytes.length, b) ∈ fill o (bytes ++ [b])
  | [], _ => mem_cons_self
  | _ :: bytes, o => by
    rw [length_cons, ← add_assoc, add_right_comm]
    exact mem_cons_of_mem _ (mem_fill_last bytes (o + 1))

theorem pushStrings_escapes : ∀ (args : List (List UInt8)), 4096 < stringBytes args →
    ∃ q ∈ (pushStrings args 4096).1, 4096 ≤ q.1
  | a :: rest, hsum => by
    rw [stringBytes_cons] at hsum
    by_cases hrest : 4096 < stringBytes rest
    · obtain ⟨q, hq, hge⟩ := pushStrings_escapes rest hrest
      exact ⟨q, mem_append_left _ hq, hge⟩
    have h1 := (pushStrings_spec (fun _ => 0) rest 4096 (le_refl _) (by omega)).1
    refine ⟨(subOff (pushStrings rest 4096).2.1 (a.length + 1) + a.length, 0), mem_append_right _ (mem_fill_last a _), ?_⟩
    dsimp only
    -- a string longer than the page ends beyond it, and below a shorter one the offset has wrapped
    by_cases hlong : 4096 ≤ a.length
    · omega
    · unfold subOff
      rw [h1]
      omega

/-! ## The words -/

theorem pokeAll_outside {x : Nat} : ∀ (l : List (Nat × UInt8)) (p : Nat → UInt8), (∀ q ∈ l, q.1 ≠ x) → pokeAll p l x = p x
  | [], _, _ => rfl
  | q :: l, p, h => (pokeAll_outside l _ fun q' hq => h q' (mem_cons_of_mem _ hq)).trans
      (if_neg fun hx => h q mem_cons_self hx.symm)

theorem pushWords_spec : ∀ (xs : List Nat) (p : Nat → UInt8) (off : Nat), off ≤ 4096 → 8 * xs.length ≤ off →
    (pushWords xs off).2 = off - 8 * xs.length ∧ (∀ q ∈ (pushWords xs off).1, q.1 < off) ∧
    ∀ j (h : j < xs.length), Lies (pokeAll p (pushWords xs off).1) (off - 8 * (j + 1)) (wordBytes xs[j])
  | [], p, off, _, _ => ⟨rfl, fun _ hq => (by cases hq), fun j hj => absurd hj (not_lt_zero j)⟩
  | x :: xs, p, off, hoff, hlen => by
    rw [length_cons] at hlen
    have hsub : subOff off 8 = off - 8 := by
      unfold subOff
      omega
    obtain ⟨h1, h2, h3⟩ := pushWords_spec xs (place p (off - 8) (wordBytes x)) (off - 8) (by omega) (by omega)
    rw [pushWords, hsub]
    dsimp only
    rw [pokeAll_append, pokeAll_fill, h1]
    refine ⟨by rw [length_cons]; omega, fun q hq => ?_, fun j hj => ?_⟩
    · rcases mem_append.1 hq with hq | hq
      · have := mem_fill _ _ q hq
        rw [show (wordBytes x).length = 8 from rfl] at this
        omega
      · have := h2 q hq
        omega
    · cases j with
      | zero =>
        refine Lies.place.congr fun k _ => pokeAll_outside _ _ fun q hq => ?_
        have := h2 q hq
        omega
      | succ j =>
        rw [getElem_cons_succ, show off - 8 * (j + 1 + 1) = off - 8 - 8 * (j + 1) by omega]
        exact h3 j (by rw [length_cons] at hj; omega)

theorem pushWords_escapes : ∀ (xs : List Nat) (off : Nat), off ≤ 4096 → off % 8 = 0 → off < 8 * xs.length →
    ∃ q ∈ (pushWords xs off).1, 4096 ≤ q.1
  | x :: xs, off, hoff, hal, hlen => by
    rw [length_cons] at hlen
    by_cases h0 : off = 0
    · subst h0
      exact ⟨(subOff 0 8, _), mem_append_left _ mem_fill_first, show 4096 ≤ subOff 0 8 by decide⟩
    have hsub : subOff off 8 = off - 8 := by
      unfold subOff
      omega
    obtain ⟨q, hq, hge⟩ := pushWords_escapes xs (off - 8) (by omega) (by omega) (by omega)
    refine ⟨q, ?_, hge⟩
    rw [pushWords, hsub]
    exact mem_append_right _ hq

/-! ## The block -/

/-- What `_start` finds at the stack pointer: `argc`, the pointers to copies of the strings, NULL. -/
structure ArgvView (page : Nat → UInt8) (off : Nat) (argv : List (List UInt8)) : Prop where
  inside : off + 8 * (argv.length + 2) ≤ 4096
  argc : leRead page off 8 = argv.length
  string : ∀ i (h : i < argv.length), ∃ o, leRead page (off + 8 + 8 * i) 8 = USTACK_BASE + o ∧ o + argv[i].length < 4096 ∧
    Lies page o (argv[i] ++ [0])
  last : leRead page (off + 8 + 8 * argv.length) 8 = 0

theorem take_length_le (argv : List (List UInt8)) : (argv.take MAX_ARGS).length ≤ 16 := by
  rw [length_take]
  exact min_le_left _ _

/-- **A block that fits is a view of the strings `sys_exec` counted.** -/
theorem argvBlock_view {argv : List (List UInt8)} (hfit : ArgvFits argv) (p : Nat → UInt8) :
    ArgvView (pokeAll p (argvBlock argv).1) (argvBlock argv).2 (argv.take MAX_ARGS) := by
  obtain ⟨hf1, hf2⟩ := hfit
  have hcap := take_length_le argv
  change stringBytes (argv.take MAX_ARGS) ≤ 4096 at hf1
  change 8 * ((argv.take MAX_ARGS).length + 2) ≤ (4096 - stringBytes (argv.take MAX_ARGS)) / 8 * 8 at hf2
  unfold argvBlock
  dsimp only
  generalize argv.take MAX_ARGS = args at *
  obtain ⟨hoff, hstr⟩ := pushStrings_spec p args 0x1000 (le_refl _) hf1
  rw [pokeAll_append, hoff]
  generalize pokeAll p (pushStrings args 0x1000).1 = p1 at *
  generalize (pushStrings args 0x1000).2.2 = addrs at *
  generalize hlo : 4096 - stringBytes args = lo at *
  have hlen : (0 :: addrs.reverse ++ [args.length]).length = args.length + 2 := by
    rw [length_append, length_cons, length_reverse, length_singleton, hstr.length]
  obtain ⟨h1, h2, h3⟩ := pushWords_spec (0 :: addrs.reverse ++ [args.length]) p1 (lo / 8 * 8) (by omega) (by rw [hlen]; omega)
  have hstr2 : Strings (pokeAll p1 (pushWords (0 :: addrs.reverse ++ [args.length]) (lo / 8 * 8)).1) args addrs lo 4096 :=
    hstr.congr (fun x hx _ => pokeAll_outside _ _ fun q hq hc => by have := h2 q hq; omega)
  rw [h1, hlen]
  generalize pokeAll p1 (pushWords (0 :: addrs.reverse ++ [args.length]) (lo / 8 * 8)).1 = p2 at *
  have hword : ∀ j x, (0 :: addrs.reverse ++ [args.length])[j]? = some x → x < 2 ^ 64 →
      leRead p2 (lo / 8 * 8 - 8 * (j + 1)) 8 = x := fun j x hx hlt => by
      obtain ⟨hj, hget⟩ := List.getElem?_eq_some_iff.1 hx
      exact leRead_of_lies (hget ▸ h3 j hj) hlt
  refine ⟨by omega, ?_, fun i hi => ?_, ?_⟩
  · have hget : (0 :: addrs.reverse ++ [args.length])[args.length + 1]? = some args.length := by
      rw [cons_append, List.getElem?_cons_succ, List.getElem?_append_right (by rw [length_reverse, hstr.length]),
        length_reverse, hstr.length, Nat.sub_self]
      rfl
    exact hword _ _ hget (by omega)
  · obtain ⟨o, haddr, -, hhi, hlies⟩ := hstr2.found i hi
    refine ⟨o, ?_, hhi, hlies⟩
    -- the pointers are pushed from the last to the first
    have hget : (0 :: addrs.reverse ++ [args.length])[args.length - 1 - i + 1]? = some (USTACK_BASE + o) := by
      have hlt : args.length - 1 - i < addrs.length := by
        rw [hstr.length]
        omega
      rw [cons_append, List.getElem?_cons_succ, List.getElem?_append_left (by rw [length_reverse]; exact hlt),
        List.getElem?_reverse hlt, hstr.length, show args.length - 1 - (args.length - 1 - i) = i by omega]
      exact haddr
    have hread := hword _ _ hget (by unfold USTACK_BASE; omega)
    rw [show lo / 8 * 8 - 8 * (args.length - 1 - i + 1 + 1) = lo / 8 * 8 - 8 * (args.length + 2) + 8 + 8 * i by omega] at hread
    exact hread
  · have hread := hword 0 0 rfl (by decide)
    rw [show lo / 8 * 8 - 8 * (0 + 1) = lo / 8 * 8 - 8 * (args.length + 2) + 8 + 8 * args.length by omega] at hread
    exact hread

theorem argvFits_of_inside {argv : List (List UInt8)} (h : ∀ q ∈ (argvBlock argv).1, q.1 < 4096) : ArgvFits argv := by
  set r := argv.take MAX_ARGS
  have hstr : stringBytes r ≤ 4096 := by
    by_contra hc
    obtain ⟨q, hq, hge⟩ := pushStrings_escapes r (by omega)
    have := h q (mem_append_left _ hq)
    omega
  refine ⟨hstr, ?_⟩
  by_contra hc
  change ¬ 8 * (r.length + 2) ≤ (4096 - stringBytes r) / 8 * 8 at hc
  obtain ⟨hoff, hspec⟩ := pushStrings_spec (fun _ => 0) r 4096 (le_refl _) hstr
  obtain ⟨q, hq, hge⟩ := pushWords_escapes (0 :: (pushStrings r 4096).2.2.reverse ++ [r.length])
    ((pushStrings r 4096).2.1 / 8 * 8) (by rw [hoff]; omega) (by omega) (by
      rw [length_append, length_cons, length_reverse, length_singleton, hspec.length, hoff]
      omega)
  have := h q (mem_append_right _ hq)
  omega

/-! ## The stack page of the new program -/

theorem storeAll_self (g : Nat) : ∀ (stores : List (Nat × UInt8)) (s : Vm), g < 2 ^ 40 → (∀ p ∈ stores, p.1 < 4096) →
    (storeAll g stores s).mem g = pokeAll (s.mem g) stores
  | [], _, _, _ => rfl
  | (o, b) :: stores, s, hg, hall => by
    rw [storeAll, storeAll_self g stores _ hg (fun p hp => hall p (mem_cons_of_mem _ hp)),
      storePhys_byte s b hg (hall (o, b) mem_cons_self)]
    unfold Vm.setByte
    rw [mem_setFrame]
    rfl

/-- `sys_exec` gets past its last check: an address space, an image that loads, and a frame for the stack. -/
def Starts (k : Kernel) (img : Image) : Prop :=
  let r := vmmCreateAddressSpace k.vm
  let e := elf64LoadInto r.2 r.1 img
  r.1 ≠ 0 ∧ e.2.1 ≠ 0 ∧ e.1.allocFrame.1 ≠ 0

def StackMapped (k : Kernel) (img : Image) : Prop :=
  let r := vmmCreateAddressSpace k.vm
  let c := (elf64LoadInto r.2 r.1 img).1.allocFrame
  (vmmMapPageInto c.2 r.1 USTACK_BASE c.1 (PAGE_RW ||| PAGE_USER)).2 = true

theorem Under.low {img : Image} (h : Under img) : LowImage img := fun _ hi hload =>
  ⟨fun _ hj => ix4_eq _ (h.page hi hload hj), fun _ hb => ix4_eq _ (h.byte hi hload hb)⟩

section Stack

variable {k : Kernel} {img : Image} {argv : List (List UInt8)}

theorem Loading.frame_lt {s1 s : Vm} {a : Nat} (h : Loading s1 s a) (hne : s.allocFrame.1 ≠ 0) : s.allocFrame.1 < 2 ^ 40 := by
  have ht := took_of_ne hne
  have h1 := ht.heldNew.lt
  have h2 := (ht.trees h.shape.trees).1.nframes
  unfold MAX_FRAMES at h2
  omega

theorem mapNew_of_ne {s : Vm} {a va : Nat} (hne : s.allocFrame.1 ≠ 0) : mapNew s a va =
    ((vmmMapPageInto s.allocFrame.2 a va s.allocFrame.1 (PAGE_RW ||| PAGE_USER)).1, s.allocFrame.1) := by
  unfold mapNew
  simp only [if_neg hne]

/-- **What the new program finds at its stack page**, if the block stays inside. -/
theorem sysExec_stack (i : Nat) (cur : Process) (h : k.Sound) (himg : Under img) (hs : Starts k img)
    (hin : ∀ q ∈ (argvBlock argv).1, q.1 < 4096) : let r := vmmCreateAddressSpace k.vm
    ∃ s p, sysExec k i cur (some img) argv = ({ k with vm := s, procs := k.procs.set i { cur with
        pml4 := r.1, stackLow := USTACK_BASE, brk := (elf64LoadInto r.2 r.1 img).2.2 } }, .value 0) ∧
      (StackMapped k img → s.page r.1 (USTACK_BASE / 4096) = some (pokeAll p (argvBlock argv).1)) ∧
      (¬ StackMapped k img → s.page r.1 (USTACK_BASE / 4096) = none) := by
  obtain ⟨h0, hentry, hframe⟩ := hs
  have hload := (Loading.start h.shape.kern h.shape.nframes h0).elf64LoadInto himg.low
  unfold StackMapped sysExec
  dsimp only
  rw [if_neg h0, if_neg hentry]
  generalize (vmmCreateAddressSpace k.vm).1 = a at *
  generalize (elf64LoadInto (vmmCreateAddressSpace k.vm).2 a img).2.2 = brk at *
  generalize (elf64LoadInto (vmmCreateAddressSpace k.vm).2 a img).1 = e at *
  have ha : a ∈ [a] := mem_singleton.2 rfl
  have hva : USTACK_BASE / 4096 < userPages := by unfold userPages; decide
  have htook := took_of_ne hframe
  obtain ⟨ht, hfollow⟩ := htook.trees hload.shape.trees
  have hlt := hload.frame_lt hframe
  obtain ⟨-, hself, hother⟩ := vmmMapPageInto_trees ht ha hva (show e.allocFrame.1 < 2 ^ 52 by omega) (PAGE_RW ||| PAGE_USER)
  obtain ⟨hkeep, hnone⟩ := vmmMapPageInto_keeps ht ha hva e.allocFrame.1 (PAGE_RW ||| PAGE_USER)
  have hdata := (hkeep.data e.allocFrame.1 htook.heldNew.used (fun b hb q hq => by
    rw [hfollow b hb q hq]
    exact hload.shape.trees.fresh htook.unused b hb q hq)).2
  rw [mapNew_of_ne hframe]
  dsimp only
  rw [if_neg hframe]
  generalize vmmMapPageInto e.allocFrame.2 a USTACK_BASE e.allocFrame.1 (PAGE_RW ||| PAGE_USER) = r at *
  generalize e.allocFrame.1 = f at *
  -- the stores change neither the tables nor another frame, and freeing the old address space changes no memory
  have hmem := storeAll_mem f (argvBlock argv).1 r.1 hlt hin
  have hleaf : ∀ v, (vmmFreeUserSpace (storeAll f (argvBlock argv).1 r.1) cur.pml4).leaf a v = r.1.leaf a v := fun v => by
    rw [(leaf_of_mem (vmmFreeUserSpace_mem _ _)).1]
    exact Shape.leaf_of_tabs (fun b hb q t hq hx => hmem.1 t (fun hc => hdata b hb q hq (hc ▸ hx))) ha v
  refine ⟨_, r.1.mem f, rfl, fun hok => ?_, fun hno => ?_⟩
  · unfold Vm.page
    rw [hleaf, hself hok, map_some, vmmFreeUserSpace_mem, storeAll_self f _ _ hlt hin]
  · have hfalse : r.2 = false := Bool.not_eq_true _ ▸ hno
    unfold Vm.page
    rw [hleaf, hother a ha _ hva (fun hc => absurd hc hno), hnone hfalse, map_none]

theorem sysExec_starts {i : Nat} {cur : Process} (hs : Starts k img) : (sysExec k i cur (some img) argv).2 = .value 0 := by
  obtain ⟨h0, hentry, hframe⟩ := hs
  unfold sysExec
  dsimp only
  rw [if_neg h0, if_neg hentry, mapNew_of_ne hframe, if_neg hframe]

/-- **Loading a program** leaves every frame in use alone, and so does mapping its stack. -/
theorem sysExec_loads (h : k.Sound) (himg : Under img) (h0 : (vmmCreateAddressSpace k.vm).1 ≠ 0) {f : Nat}
    (hf : k.vm.pmm.used f = true) : let r := vmmCreateAddressSpace k.vm
    let e := (elf64LoadInto r.2 r.1 img).1
    e.pmm.used f = true ∧ e.mem f = k.vm.mem f ∧ (mapNew e r.1 USTACK_BASE).1.mem f = k.vm.mem f := by
  have htook := (vmmCreateAddressSpace_took h0).1
  have hne := htook.ne hf
  have hf1 := (htook.pmm f hne).1.trans hf
  have hload := (Loading.start h.shape.kern h.shape.nframes h0).elf64LoadInto himg.low
  have hnew := hload.mapNew (show USTACK_BASE / 4096 < userPages by unfold userPages; decide)
  exact ⟨hload.used f hf1, (hload.mem f hf1 hne).trans (htook.mem f hne), (hnew.mem f hf1 hne).trans (htook.mem f hne)⟩

theorem sysExec_keeps (i : Nat) (cur : Process) (argv : List (List UInt8)) (h : k.Sound) (himg : Under img)
    (hs : ¬ Starts k img) : ∃ s, sysExec k i cur (some img) argv = ({ k with vm := s }, .value (-1)) ∧
      ∀ f, k.vm.pmm.used f = true → s.mem f = k.vm.mem f := by
  unfold Starts at hs
  unfold sysExec
  dsimp only at hs ⊢
  by_cases h0 : (vmmCreateAddressSpace k.vm).1 = 0
  · rw [if_pos h0]
    have hnone : k.vm.allocFrame.1 = 0 := by
      rw [← vmmCreateAddressSpace_fst]
      exact h0
    refine ⟨_, rfl, fun f _ => ?_⟩
    unfold vmmCreateAddressSpace
    dsimp only
    rw [if_pos hnone]
    rfl
  have hmem := fun f => sysExec_loads (f := f) h himg h0
  dsimp only at hmem
  rw [if_neg h0]
  generalize (vmmCreateAddressSpace k.vm).1 = a at *
  generalize (vmmCreateAddressSpace k.vm).2 = s1 at *
  by_cases hentry : (elf64LoadInto s1 a img).2.1 = 0
  · rw [if_pos hentry]
    exact ⟨_, rfl, fun f hf => (hmem f hf).2.1⟩
  rw [if_neg hentry]
  have hframe : (elf64LoadInto s1 a img).1.allocFrame.1 = 0 := by
    by_contra hc
    exact hs ⟨h0, hentry, hc⟩
  have hzero : (mapNew (elf64LoadInto s1 a img).1 a USTACK_BASE).2 = 0 := by
    unfold mapNew
    simp only [if_pos hframe]
  rw [if_pos hzero]
  exact ⟨_, rfl, fun f hf => (hmem f hf).2.2⟩

theorem page_of_used {R : List Nat} {s s' : Vm} (h : Shape s R) (hm : ∀ f, s.pmm.used f = true → s'.mem f = s.mem f)
    {a v : Nat} (ha : a ∈ R) (hv : v < userPages) : s'.page a v = s.page a v := by
  have hleaf : s'.leaf a v = s.leaf a v :=
    Shape.leaf_of_tabs (fun b hb q t hq ht => hm t (h.tabHeld b hb q t hq ht).used) ha v
  unfold Vm.page
  rw [hleaf]
  cases hl : s.leaf a v with
  | none => rfl
  | some e => rw [map_some, map_some, hm _ (h.leafHeld a ha v hv e hl).used]

end Stack

/-- `sys_exec` returns -1 and leaves the process as it was, or the block stays inside the stack page and is a view of `argv`. -/
def PassesArgv (k : Kernel) (i : Nat) (cur : Process) (img : Image) (argv : List (List UInt8)) : Prop :=
  let r := sysExec k i cur (some img) argv
  (r.2 = .value (-1) ∧ r.1.procs = k.procs ∧ ∀ v < userPages, r.1.vm.page cur.pml4 v = k.vm.page cur.pml4 v) ∨
  (r.2 = .value 0 ∧ (∀ q ∈ (argvBlock argv).1, q.1 < 4096) ∧ ∃ p page, r.1.procs[i]? = some p ∧
    r.1.vm.page p.pml4 (USTACK_BASE / 4096) = some page ∧ ArgvView page (argvBlock argv).2 argv)

/-- **`sys_exec` passes `argv` or fails** exactly when, once it has a frame for the stack, the frame could be mapped, there are
no more than `MAX_ARGS` strings, and they fit with their pointers in one page. -/
theorem exec_argv_iff (k : Kernel) (h : k.Sound) (i : Nat) (cur : Process) (hi : k.procs[i]? = some cur) (img : Image)
    (himg : Under img) (argv : List (List UInt8)) :
    PassesArgv k i cur img argv ↔ (Starts k img → StackMapped k img ∧ argv.length ≤ MAX_ARGS ∧ ArgvFits argv) := by
  have hlt := (List.getElem?_eq_some_iff.1 hi).1
  unfold PassesArgv
  dsimp only
  by_cases hs : Starts k img
  swap
  · obtain ⟨s, heq, hmem⟩ := sysExec_keeps i cur argv h himg hs
    rw [heq]
    exact ⟨fun _ hc => absurd hc hs, fun _ => .inl ⟨rfl, rfl, fun v hv => page_of_used h.shape hmem (mem_kernelRoots hi) hv⟩⟩
  refine ⟨fun hpass _ => ?_, fun hcond => ?_⟩
  · have hin : ∀ q ∈ (argvBlock argv).1, q.1 < 4096 := by
      rcases hpass with ⟨hret, -⟩ | ⟨-, hin, -⟩
      · rw [sysExec_starts hs] at hret
        cases hret
      · exact hin
    obtain ⟨s, p0, heq, hyes, hno⟩ := sysExec_stack i cur h himg hs hin
    rw [heq] at hpass
    dsimp only at hpass
    rcases hpass with ⟨hret, -⟩ | ⟨-, -, p, page, hp, hpage, hview⟩
    · cases hret
    rw [List.getElem?_set_self hlt] at hp
    obtain rfl := some.inj hp
    dsimp only at hpage
    have hmapped : StackMapped k img := by
      by_contra hc
      rw [hno hc] at hpage
      cases hpage
    refine ⟨hmapped, ?_, argvFits_of_inside hin⟩
    rw [hyes hmapped] at hpage
    obtain rfl := some.inj hpage
    have hargc := (argvBlock_view (argvFits_of_inside hin) p0).argc
    rw [hview.argc, length_take] at hargc
    exact hargc ▸ min_le_left _ _
  · obtain ⟨hmapped, hlen, hfit⟩ := hcond hs
    have hin := argvBlock_bound hfit
    obtain ⟨s, p0, heq, hyes, -⟩ := sysExec_stack i cur h himg hs hin
    have hview := argvBlock_view hfit p0
    rw [take_of_length_le hlen] at hview
    rw [heq]
    exact .inr ⟨rfl, hin, _, _, List.getElem?_set_self hlt, hyes hmapped, hview⟩

/-! ## Two calls -/

def touchProcess : Process := ⟨0x1000, 1, 2, USTACK_BASE, 0, 0, false, 0⟩

theorem touchStart_starts : Starts touchStart bareImage ∧ StackMapped touchStart bareImage := by
  refine ⟨⟨by decide +kernel, ?_, ?_⟩, ?_⟩
  · rw [bareImage_load]
    decide
  · rw [bareImage_load]
    decide +kernel
  · unfold StackMapped
    dsimp only
    rw [bareImage_load]
    decide +kernel

/-- `ls -l`. -/
theorem exec_argv_iff_ls : PassesArgv touchStart 0 touchProcess bareImage [[0x6c, 0x73], [0x2d, 0x6c]] :=
  (exec_argv_iff touchStart touchStart_sound 0 touchProcess rfl bareImage bareImage_under [[0x6c, 0x73], [0x2d, 0x6c]]).2
    (fun _ => ⟨touchStart_starts.2, by decide, by unfold ArgvFits; decide⟩)

def manyWords : List (List UInt8) := List.replicate 17 [0x61]

/-- **The seventeenth argument is lost, and a long one is stored outside the page**; both calls return 0. -/
theorem exec_drops_argument : (sysExec touchStart 0 touchProcess (some bareImage) manyWords).2 = .value 0 ∧
    ¬ PassesArgv touchStart 0 touchProcess bareImage manyWords ∧
    (∀ p, leRead (pokeAll p (argvBlock manyWords).1) (argvBlock manyWords).2 8 = 16) ∧
    (sysExec touchStart 0 touchProcess (some bareImage) [List.replicate 4096 0x61]).2 = .value 0 ∧
    ∃ q ∈ (argvBlock [List.replicate 4096 0x61]).1, 4096 ≤ q.1 := by
  have hfit : ArgvFits manyWords := by unfold ArgvFits; decide
  have hargc : ∀ p, leRead (pokeAll p (argvBlock manyWords).1) (argvBlock manyWords).2 8 = 16 := fun p =>
    (argvBlock_view hfit p).argc
  refine ⟨sysExec_starts touchStart_starts.1, ?_, hargc, sysExec_starts touchStart_starts.1, ?_⟩
  · obtain ⟨s, p0, heq, hyes, -⟩ := sysExec_stack 0 touchProcess touchStart_sound bareImage_under touchStart_starts.1
      (argvBlock_bound hfit)
    unfold PassesArgv
    rw [heq]
    rintro (⟨hret, -⟩ | ⟨-, -, p, page, hp, hpage, hview⟩)
    · cases hret
    · obtain rfl := some.inj hp
      dsimp only at hpage
      rw [hyes touchStart_starts.2] at hpage
      obtain rfl := some.inj hpage
      have h17 := hview.argc
      rw [hargc p0] at h17
      exact absurd h17 (by decide)
  · obtain ⟨q, hq, hge⟩ := pushStrings_escapes [replicate 4096 0x61] (by
      rw [stringBytes_cons, length_replicate]
      omega)
    exact ⟨q, mem_append_left _ hq, hge⟩

/-! ## The memory of the others -/

end Noxis
