import Noxis.Run
import Noxis.VmAccess
import Noxis.VmFork
import Noxis.VmFree
import Noxis.VmRoom
/-!
# CowFork — fork, user accesses and teardown over a set of address spaces

`Machine` is the memory manager under a sequence of forks, user-mode reads and writes and teardowns; the way fork fills the
child is a parameter, so `vmmCowUserSpace` and `vmmCopyUserSpace` give two machines.  `PrivateMemory` is what both are for:
every address space has pages of its own, fork copies them.  `step_refines` shows that each machine is the private memory
under the abstraction `Machine.abs`, as long as no allocation fails and no frame is shared more than 255 times, and
`cow_reads_as_copy` that no user can tell the two apart.
-/
namespace Noxis

open List Bool Radix Option Vm Always

/-! ## The machine -/

structure Space where
  pml4 : Nat
  stackLow : Nat

/-- The address spaces in the order they were made; a freed one is `none`.  `halted` is the handler's panic loop. -/
structure Machine where
  vm : Vm
  spaces : List (Option Space)
  halted : Bool

inductive Op where
  | fork (i : Nat)
  | read (i va : Nat)
  | write (i va : Nat) (b : UInt8)
  | free (i : Nat)

inductive Out where
  | done
  | byte (b : UInt8)
  | halt
deriving DecidableEq

/-- `vmm_create_address_space`, then `share`, as `sys_fork` calls them. -/
def Machine.fork (share : Vm → Nat → Nat → Vm × Bool) (m : Machine) (i : Nat) : Machine :=
  match m.spaces[i]? with
  | some (some sp) =>
    let r := vmmCreateAddressSpace m.vm
    if r.1 = 0 then { m with vm := r.2 }
    else
      match share r.2 r.1 sp.pml4 with
      | (s, false) => { m with vm := s }
      | (s, true) => { m with vm := s, spaces := m.spaces ++ [some ⟨r.1, sp.stackLow⟩] }
  | _ => m

/-- A user-mode access of one byte: a write of `b` for `some b`, else a read. -/
def Machine.access (m : Machine) (i va : Nat) (w : Option UInt8) : Machine × Out :=
  match m.spaces[i]? with
  | some (some sp) =>
    match userAccess m.vm sp.pml4 va w.isSome sp.stackLow with
    | (s, none) => ({ m with vm := s, halted := true }, .halt)
    | (s, some (low, f)) =>
      match w with
      | none => ({ m with vm := s, spaces := m.spaces.set i (some ⟨sp.pml4, low⟩) }, .byte (s.mem f (va % 4096)))
      | some b => ({ m with vm := s.setByte f (va % 4096) b, spaces := m.spaces.set i (some ⟨sp.pml4, low⟩) }, .done)
  | _ => (m, .done)

def Machine.free (m : Machine) (i : Nat) : Machine :=
  match m.spaces[i]? with
  | some (some sp) => { m with vm := vmmFreeUserSpace m.vm sp.pml4, spaces := m.spaces.set i none }
  | _ => m

def Machine.step (share : Vm → Nat → Nat → Vm × Bool) (m : Machine) (op : Op) : Machine × Out :=
  if m.halted then (m, .halt)
  else
    match op with
    | .fork i => (m.fork share i, .done)
    | .read i va => m.access i va none
    | .write i va b => m.access i va (some b)
    | .free i => (m.free i, .done)

def roots (l : List (Option Space)) : List Nat := l.filterMap (Option.map Space.pml4)

/-- The kernel's own address space is up: its PML4 is an allocated frame. -/
def Ready (s : Vm) : Prop := s.pmm.nframes ≤ MAX_FRAMES ∧ s.pmm.Held s.kpml4

/-- A machine before any fork: booted, address spaces made by `vmm_create_address_space`, and each page mapped by
`vmm_map_page_into` at an address not mapped yet on a frame fresh from `pmm_alloc_frame`, whose bytes the kernel then fills. -/
inductive Setup : Machine → Prop where
  | boot {s : Vm} : Ready s → Setup ⟨s, [], false⟩
  | create {m : Machine} (low : Nat) : Setup m → Setup ⟨(vmmCreateAddressSpace m.vm).2,
      m.spaces ++ [some ⟨(vmmCreateAddressSpace m.vm).1, low⟩], false⟩
  | map {m : Machine} {i : Nat} {sp : Space} (va : Nat) (bytes : Nat → UInt8) : Setup m → m.spaces[i]? = some (some sp) →
      va % 4096 = 0 → va < 2 ^ 39 → m.vm.leaf sp.pml4 (va / 4096) = none →
      Setup ⟨(vmmMapPageInto (m.vm.allocFrame.2.setFrame m.vm.allocFrame.1 bytes) sp.pml4 va m.vm.allocFrame.1
        (PAGE_RW ||| PAGE_USER)).1, m.spaces, false⟩

/-! ## Private memory -/

structure View where
  page : Nat → Option (Nat → UInt8)
  stackLow : Nat

/-- What the machine is for: every address space has its own pages. -/
structure PrivateMemory where
  spaces : List (Option View)
  halted : Bool

namespace PrivateMemory

def fork (n : PrivateMemory) (i : Nat) : PrivateMemory :=
  match n.spaces[i]? with
  | some (some v) => { n with spaces := n.spaces ++ [some v] }
  | _ => n

def setPage (v : View) (k : Nat) (p : Nat → UInt8) (low : Nat) : View :=
  ⟨fun j => if j = k then some p else v.page j, low⟩

def access (n : PrivateMemory) (i va : Nat) (w : Option UInt8) : PrivateMemory × Out :=
  match n.spaces[i]? with
  | some (some v) =>
    if va < 2 ^ 39 then
      match accessPage (v.page (va / 4096)) va v.stackLow with
      | none => ({ n with halted := true }, .halt)
      | some (low, p) =>
        match w with
        | none => ({ n with spaces := n.spaces.set i (some (setPage v (va / 4096) p low)) }, .byte (p (va % 4096)))
        | some b => ({ n with spaces := n.spaces.set i (some (setPage v (va / 4096)
            (fun x => if x = va % 4096 then b else p x) low)) }, .done)
    else ({ n with halted := true }, .halt)
  | _ => (n, .done)

def free (n : PrivateMemory) (i : Nat) : PrivateMemory :=
  match n.spaces[i]? with
  | some (some _) => { n with spaces := n.spaces.set i none }
  | _ => n

def step (n : PrivateMemory) (op : Op) : PrivateMemory × Out :=
  if n.halted then (n, .halt)
  else
    match op with
    | .fork i => (n.fork i, .done)
    | .read i va => n.access i va none
    | .write i va b => n.access i va (some b)
    | .free i => (n.free i, .done)

end PrivateMemory

def view (s : Vm) (sp : Space) : View := ⟨fun v => if v < userPages then s.page sp.pml4 v else none, sp.stackLow⟩

def Machine.abs (m : Machine) : PrivateMemory := ⟨m.spaces.map (Option.map (view m.vm)), m.halted⟩

/-! ## The list of address spaces -/

variable {l : List (Option Space)} {i va k : Nat} {sp : Space}

theorem mem_roots (h : l[i]? = some (some sp)) : sp.pml4 ∈ roots l :=
  mem_filterMap.2 ⟨some sp, mem_of_getElem? h, rfl⟩

theorem roots_append (l : List (Option Space)) (sp : Space) : roots (l ++ [some sp]) = roots l ++ [sp.pml4] := by
  unfold roots; rw [filterMap_append]; rfl

theorem roots_set_none : ∀ {l : List (Option Space)} {i : Nat} {sp : Space}, l[i]? = some (some sp) →
    (sp.pml4 :: roots (l.set i none)).Perm (roots l)
  | [], _, _, h => by cases h
  | x :: l, 0, sp, h => by
    obtain rfl : x = some sp := some.inj h
    exact List.Perm.refl _
  | none :: l, i + 1, sp, h => roots_set_none (l := l) h
  | some y :: l, i + 1, sp, h =>
    (List.Perm.swap y.pml4 sp.pml4 _).trans ((roots_set_none (l := l) h).cons y.pml4)

theorem roots_set_same : ∀ {l : List (Option Space)} {i : Nat} {sp : Space}, l[i]? = some (some sp) → ∀ low,
    roots (l.set i (some ⟨sp.pml4, low⟩)) = roots l
  | [], _, _, h, _ => by cases h
  | x :: l, 0, sp, h, low => by
    obtain rfl : x = some sp := some.inj h
    rfl
  | none :: l, i + 1, sp, h, low => roots_set_same (l := l) h low
  | some y :: l, i + 1, sp, h, low => congrArg (y.pml4 :: ·) (roots_set_same (l := l) h low)

theorem roots_ne (hnd : (roots l).Nodup) {j : Nat} {sp' : Space} (hi : l[i]? = some (some sp))
    (hj : l[j]? = some (some sp')) (hij : j ≠ i) : sp'.pml4 ≠ sp.pml4 := by
  have hp := roots_set_none hi
  have hn := (hp.nodup_iff.2 hnd)
  have hmem : sp'.pml4 ∈ roots (l.set i none) := mem_roots (i := j) (by
    rw [getElem?_set_ne (Ne.symm hij)]; exact hj)
  rintro heq
  exact (nodup_cons.1 hn).1 (heq ▸ hmem)

variable {s s' : Vm}

theorem views_set (x : Option Space) (h : ∀ j sp, j ≠ i → l[j]? = some (some sp) → view s' sp = view s sp) :
    (l.set i x).map (Option.map (view s')) = (l.map (Option.map (view s))).set i (x.map (view s')) := by
  apply ext_getElem?
  intro j
  rw [getElem?_map]
  by_cases hj : j = i
  · subst hj
    rw [getElem?_set_self', getElem?_set_self', getElem?_map]
    cases l[j]? with
    | none => simp only [Option.map_eq_map, Option.map_none]
    | some y => simp only [Option.map_eq_map, Option.map_some, Function.const_apply]
  · rw [getElem?_set_ne (Ne.symm hj), getElem?_set_ne (Ne.symm hj), getElem?_map]
    cases hl : l[j]? with
    | none => simp only [Option.map_none]
    | some y =>
      cases y with
      | none => simp only [Option.map_some, Option.map_none]
      | some sp => simp only [Option.map_some, h j sp hj hl]

theorem views_congr
    (h : ∀ sp, some sp ∈ l → view s' sp = view s sp) : l.map (Option.map (view s')) = l.map (Option.map (view s)) := by
  refine map_congr_left (fun x hx => ?_)
  cases x with
  | none => simp only [Option.map_none]
  | some sp => simp only [Option.map_some, h sp hx]

theorem view_congr (h : ∀ v < userPages, s'.page sp.pml4 v = s.page sp.pml4 v) : view s' sp = view s sp := by
  have hp : (fun v => if v < userPages then s'.page sp.pml4 v else none) =
      fun v => if v < userPages then s.page sp.pml4 v else none := by
    funext v
    by_cases hv : v < userPages
    · simp only [if_pos hv, h v hv]
    · simp only [if_neg hv]
  simp only [view, hp]

/-! ## The two ways to fork -/

/-- What a fork must do with a fresh address space `d` and its parent `a`: the child shows what the parent shows, nobody
else sees a change, and the invariants hold, the counts as long as the number of mappings of each frame is within `lim`. -/
structure Forks (lim : Nat → Prop) (share : Vm → Nat → Nat → Vm × Bool) : Prop where
  failed : ∀ s d a, (share s d a).1.pmm.failed = false → s.pmm.failed = false
  spec : ∀ (s : Vm) (R : List Nat) (a d : Nat), Shape s R → Counted s R → a ∈ R → d ∈ R → a ≠ d →
    (∀ v < userPages, s.leaf d v = none) → (share s d a).1.pmm.failed = false →
    (share s d a).2 = true ∧ Shape (share s d a).1 R ∧
    ((∀ f, lim (mapCount (share s d a).1 R f)) → Counted (share s d a).1 R) ∧
    (∀ b ∈ R, b ≠ d → ∀ v < userPages, (share s d a).1.page b v = s.page b v) ∧
    (∀ v < userPages, (share s d a).1.page d v = s.page a v)
  room : ∀ (s : Vm) (R : List Nat) (a d k : Nat), Shape s R → Counted s R → a ∈ R → d ∈ R → a ≠ d →
    (∀ v < userPages, s.leaf d v = none) → Room s.pmm (k + 4 * pagesFrom s a 0) → Room (share s d a).1.pmm k

theorem failed_of_leaves {body : Nat → Nat → Nat → Vm → Vm × Bool}
    (hF : ∀ va pt i s, s.pmm.failed = true → (body va pt i s).1.pmm.failed = true) (s : Vm) (src : Nat)
    (h : (forUserLeaves body s src).1.pmm.failed = false) : s.pmm.failed = false := by
  cases hs : s.pmm.failed with
  | false => rfl
  | true =>
    rw [forUserLeaves_keeps body (fun s => s.pmm.failed = true) hF s src hs] at h
    cases h

theorem vmmCowUserSpace_forks : Forks (· ≤ 255) vmmCowUserSpace := by
  refine ⟨fun s d a h => failed_of_leaves (cowLeaf_failed d) s a h, ?_, fun s R a d k h _ ha hd had hempty hroom =>
    vmmCowUserSpace_room h ha hd had hempty (hroom.mono (by omega))⟩
  intro s R a d h hc ha hd had hempty hok
  obtain ⟨hb, hcow⟩ := vmmCowUserSpace_spec h ha hd had hempty hok
  generalize (vmmCowUserSpace s d a).1 = s' at *
  have hmem : ∀ b ∈ R, ∀ v < userPages, ∀ e, s.leaf b v = some e → s'.mem e.frame = s.mem e.frame := fun b hb v hv e he =>
    hcow.mem e.frame (h.leafHeld b hb v hv e he).used (h.leafTab b hb v hv e he)
  -- a demoted leaf shows the frame it showed
  have hshow : ∀ v < userPages, ((s.leaf a v).map demote).map (fun e => s'.mem e.frame) = s.page a v := by
    intro v hv
    unfold page
    cases he : s.leaf a v with
    | none => simp only [map_none]
    | some e => simp only [map_some, demote, hmem a ha v hv e he]
  refine ⟨hb, hcow.shape, fun hle => hcow.counted h ha hd hempty hc (fun f => ?_), fun b hbR hbd v hv => ?_, fun v hv => ?_⟩
  · rw [← hcow.mapCount hd h.nodup hempty f]; exact hle f
  · by_cases hba : b = a
    · subst hba
      rw [page, hcow.leafSrc v hv, if_pos hv, hshow v hv]
    · exact page_congr (hcow.leafOther b hbR hba hbd v hv) (hmem b hbR v hv)
  · rw [page, hcow.leafDst v hv, if_pos hv, hshow v hv]

theorem vmmCopyUserSpace_forks : Forks (fun _ => True) vmmCopyUserSpace := by
  refine ⟨fun s d a h => failed_of_leaves (copyLeaf_failed d) s a h, ?_, fun s R a d k h hc ha hd had hempty hroom =>
    vmmCopyUserSpace_room h hc ha hd had hempty hroom⟩
  intro s R a d h hc ha hd had hempty hok
  obtain ⟨hb, hcopy⟩ := vmmCopyUserSpace_spec h hc ha hd had hempty hok
  generalize (vmmCopyUserSpace s d a).1 = s' at *
  refine ⟨hb, hcopy.shape, fun _ => hcopy.counted, fun b hbR hbd v hv => ?_, fun v hv => ?_⟩
  · exact page_congr (hcopy.leafOther b hbR hbd v hv) (fun e he =>
      hcopy.mem e.frame (h.leafHeld b hbR v hv e he).used (h.leafTab b hbR v hv e he))
  · unfold page
    cases he : s.leaf a v with
    | none => rw [hcopy.leafNone v hv (.inr he)]; simp only [map_none]
    | some e =>
      obtain ⟨e', hl, -, hm, -⟩ := hcopy.leafDst v hv hv e he
      rw [hl]; simp only [map_some, hm]

/-! ## One step -/

def Machine.Good (m : Machine) : Prop := Shape m.vm (roots m.spaces) ∧ Counted m.vm (roots m.spaces)

/-- No allocation has failed, and the number of address spaces that map a frame is within `lim`. -/
def Machine.Within (lim : Nat → Prop) (m : Machine) : Prop :=
  m.vm.pmm.failed = false ∧ ∀ f, lim (mappers m.vm (roots m.spaces) f)

theorem Counted.perm {R R' : List Nat} (h : Counted s R) (hp : R.Perm R') : Counted s R' := fun f => by
  rw [← mapCount_perm s f hp]; exact h f

theorem abs_getElem? (m : Machine) (i : Nat) : m.abs.spaces[i]? = (m.spaces[i]?).map (Option.map (view m.vm)) := by
  unfold Machine.abs; rw [getElem?_map]

variable {lim : Nat → Prop} {share : Vm → Nat → Nat → Vm × Bool} {m : Machine}

theorem counted_fresh {s s1 : Vm} {R : List Nat} {d : Nat} (htook : Took s s1 d) (h : Shape s R) (hc : Counted s R)
    (hempty : s1.child d 0 = none) : Counted s1 (d :: R) := fun f => by
  rw [mapCount_cons, leafCount_empty (fun v _ => leaf_of_empty hempty v) f, zero_add]
  exact htook.counted h hc f

/-- **A fork that found its frames**: a fresh address space, filled by `share`. -/
theorem fork_eq (hshare : Forks lim share) (h : m.Good)
 (hi : m.spaces[i]? = some (some sp)) (hok : (m.fork share i).vm.pmm.failed = false) :
    ∃ s1 d, Took m.vm s1 d ∧ Shape s1 (d :: roots m.spaces) ∧ Counted s1 (d :: roots m.spaces) ∧ sp.pml4 ≠ d ∧
      (∀ v < userPages, s1.leaf d v = none) ∧ (share s1 d sp.pml4).1.pmm.failed = false ∧
      m.fork share i = { m with vm := (share s1 d sp.pml4).1, spaces := m.spaces ++ [some ⟨d, sp.stackLow⟩] } := by
  obtain ⟨hshape, hcount⟩ := h
  have ha := mem_roots hi
  unfold Machine.fork at hok ⊢
  simp only [hi] at hok ⊢
  set r := vmmCreateAddressSpace m.vm
  have hok1 : r.2.pmm.failed = false := by
    split at hok
    · exact hok
    · split at hok
      next s heq => exact hshare.failed _ _ _ (by rw [heq]; exact hok)
      next s heq => exact hshare.failed _ _ _ (by rw [heq]; exact hok)
  obtain ⟨h0, htook, hshape1, hempty⟩ := vmmCreateAddressSpace_spec hshape hok1
  rw [if_neg h0] at hok ⊢
  generalize hd : r.1 = d at *
  generalize r.2 = s1 at *
  have hempty' : ∀ v < userPages, s1.leaf d v = none := fun v _ => leaf_of_empty hempty v
  have hcount1 := counted_fresh htook hshape hcount hempty
  have had : sp.pml4 ≠ d := fun hx => (nodup_cons.1 hshape1.nodup).1 (hx ▸ ha)
  have hok2 : (share s1 d sp.pml4).1.pmm.failed = false := by
    split at hok
    next s heq => rw [heq]; exact hok
    next s heq => rw [heq]; exact hok
  have hb := (hshare.spec s1 (d :: roots m.spaces) sp.pml4 d hshape1 hcount1
    (mem_cons_of_mem _ ha) mem_cons_self had hempty' hok2).1
  refine ⟨s1, d, htook, hshape1, hcount1, had, hempty', hok2, ?_⟩
  cases hr : share s1 d sp.pml4 with | mk s2 b =>
  rw [hr] at hb
  obtain rfl : b = true := hb
  simp only

theorem fork_refines (hshare : Forks lim share) (h : m.Good)
    (hok : (m.fork share i).Within lim) : (m.fork share i).Good ∧ m.abs.fork i = (m.fork share i).abs := by
  by_cases hsome : ∃ sp, m.spaces[i]? = some (some sp)
  · obtain ⟨sp, hi⟩ := hsome
    obtain ⟨s1, d, htook, hshape1, hcount1, had, hempty, hok2, heq⟩ := fork_eq hshare h hi hok.1
    have ha := mem_roots hi
    have hshape := h.1
    have hpage1 : ∀ b ∈ roots m.spaces, ∀ v < userPages, s1.page b v = m.vm.page b v := fun b hb v hv =>
      page_congr (htook.leaf hshape hb v) (fun e he => htook.mem _ (htook.ne (hshape.leafHeld b hb v hv e he).used))
    obtain ⟨-, hshape2, hcount2, hother, hchild⟩ := hshare.spec s1 (d :: roots m.spaces) sp.pml4 d hshape1 hcount1
      (mem_cons_of_mem _ ha) mem_cons_self had hempty hok2
    have hperm : (d :: roots m.spaces).Perm (roots (m.spaces ++ [some ⟨d, sp.stackLow⟩])) := by
      rw [roots_append]; exact (perm_append_singleton d _).symm
    rw [heq] at hok ⊢
    generalize (share s1 d sp.pml4).1 = s2 at *
    have hle : ∀ f, lim (mapCount s2 (d :: roots m.spaces) f) := fun f => by
      rw [mapCount_perm s2 f hperm, ← mappers_eq (hshape2.perm hperm)]; exact hok.2 f
    have hpage2 : ∀ b ∈ roots m.spaces, ∀ v < userPages, s2.page b v = m.vm.page b v := by
      intro b hb v hv
      rw [hother b (mem_cons_of_mem _ hb) (fun hx => (nodup_cons.1 hshape1.nodup).1 (hx ▸ hb)) v hv]
      exact hpage1 b hb v hv
    refine ⟨⟨hshape2.perm hperm, (hcount2 hle).perm hperm⟩, ?_⟩
    have hview : ∀ sp', some sp' ∈ m.spaces → view s2 sp' = view m.vm sp' := fun sp' hsp' =>
      view_congr (hpage2 sp'.pml4 (mem_filterMap.2 ⟨some sp', hsp', rfl⟩))
    have hnew : view s2 ⟨d, sp.stackLow⟩ = view m.vm sp := by
      have hp : (fun v => if v < userPages then s2.page d v else none) =
          fun v => if v < userPages then m.vm.page sp.pml4 v else none := by
        funext v
        by_cases hv : v < userPages
        · simp only [if_pos hv, hchild v hv, hpage1 _ ha v hv]
        · simp only [if_neg hv]
      simp only [view, hp]
    unfold PrivateMemory.fork
    rw [abs_getElem?]
    simp only [hi, map_some, Machine.abs, map_append, map_cons, map_nil, views_congr hview, hnew]
  · unfold PrivateMemory.fork
    rw [abs_getElem?]
    unfold Machine.fork
    cases hi : m.spaces[i]? with
    | none => exact ⟨h, by simp only [map_none]⟩
    | some o =>
      cases o with
      | none => exact ⟨h, by simp only [map_none, map_some]⟩
      | some sp => exact absurd ⟨sp, hi⟩ hsome

theorem free_refines (h : m.Good) (i : Nat) : (m.free i).Good ∧ m.abs.free i = (m.free i).abs := by
  obtain ⟨hshape, hcount⟩ := h
  unfold PrivateMemory.free
  rw [abs_getElem?]
  unfold Machine.free
  cases hi : m.spaces[i]? with
  | none => exact ⟨⟨hshape, hcount⟩, by simp only [map_none]⟩
  | some o =>
    cases o with
    | none => exact ⟨⟨hshape, hcount⟩, by simp only [map_none, map_some]⟩
    | some sp =>
      simp only [map_some]
      have ha := mem_roots hi
      have hf := vmmFreeUserSpace_spec hshape hcount ha
      have hperm : ((roots m.spaces).erase sp.pml4).Perm (roots (m.spaces.set i none)) :=
        (perm_cons sp.pml4).1 ((perm_cons_erase ha).symm.trans (roots_set_none hi).symm)
      refine ⟨⟨hf.shape.perm hperm, hf.counted.perm hperm⟩, ?_⟩
      have hview : ∀ sp', view (vmmFreeUserSpace m.vm sp.pml4) sp' = view m.vm sp' := fun sp' =>
        view_congr (fun v _ => by unfold page; rw [(leaf_of_mem hf.mem).1, hf.mem])
      simp only [Machine.abs, views_set none (fun j sp' _ _ => hview sp'), map_none]

theorem shows_views (hshape : Shape m.vm (roots m.spaces))
    (hi : m.spaces[i]? = some (some sp)) {v low : Nat} {e : Pte} {p : Nat → UInt8} (hv : v < userPages)
    (hs : Shows m.vm s' (roots m.spaces) sp.pml4 v e p) : (m.spaces.set i (some ⟨sp.pml4, low⟩)).map (Option.map (view s')) =
      (m.spaces.map (Option.map (view m.vm))).set i (some (PrivateMemory.setPage (view m.vm sp) v p low)) := by
  have ha := mem_roots hi
  rw [views_set _ (fun j sp' hji hj => view_congr (fun w hw => hs.page _ (mem_roots hj) w hw (fun hx =>
    roots_ne hshape.nodup hi hj hji hx.1)))]
  congr 1
  simp only [Option.map_some, PrivateMemory.setPage, view]
  congr 2
  funext w
  by_cases hwv : w = v
  · subst hwv
    simp only [if_pos hv, if_true, page, hs.leaf, Option.map_some, hs.self]
  · by_cases hw : w < userPages
    · simp only [if_pos hw, if_neg hwv, hs.page _ ha w hw (fun hx => hwv hx.2)]
    · simp only [if_neg hw, if_neg hwv]

variable {w : Option UInt8}

theorem access_refines (h : m.Good) (hok : (m.access i va w).1.vm.pmm.failed = false) :
    (m.access i va w).1.Good ∧ m.abs.access i va w = ((m.access i va w).1.abs, (m.access i va w).2) := by
  obtain ⟨hshape, hcount⟩ := h
  unfold PrivateMemory.access
  rw [abs_getElem?]
  unfold Machine.access at hok ⊢
  cases hi : m.spaces[i]? with
  | none => exact ⟨⟨hshape, hcount⟩, by simp only [map_none]⟩
  | some o =>
    cases o with
    | none => exact ⟨⟨hshape, hcount⟩, by simp only [map_none, map_some]⟩
    | some sp =>
      simp only [hi, map_some] at hok ⊢
      have ha := mem_roots hi
      by_cases hva : va < 2 ^ 39
      swap
      · have hacc : userAccess m.vm sp.pml4 va w.isSome sp.stackLow = (m.vm, none) := by
          unfold userAccess; rw [if_neg hva]
        simp only [hacc, if_neg hva]
        exact ⟨⟨hshape, hcount⟩, rfl⟩
      have hv : va / 4096 < userPages := by unfold userPages; omega
      have hok1 : (userAccess m.vm sp.pml4 va w.isSome sp.stackLow).1.pmm.failed = false := by
        cases hacc : userAccess m.vm sp.pml4 va w.isSome sp.stackLow with | mk s o =>
        rw [hacc] at hok
        cases o with
        | none => exact hok
        | some r => cases w <;> exact hok
      have hspec := userAccess_spec hshape hcount ha hva w.isSome sp.stackLow hok1
      have hpage : (view m.vm sp).page (va / 4096) = m.vm.page sp.pml4 (va / 4096) := by simp only [view, if_pos hv]
      rw [if_pos hva, hpage, show (view m.vm sp).stackLow = sp.stackLow from rfl]
      cases hap : accessPage (m.vm.page sp.pml4 (va / 4096)) va sp.stackLow with
      | none =>
        simp only [hap] at hspec
        simp only [hspec]
        exact ⟨⟨hshape, hcount⟩, rfl⟩
      | some r =>
        obtain ⟨low, p⟩ := r
        simp only [hap] at hspec
        obtain ⟨s', e, hacc, hs, hrw⟩ := hspec
        simp only [hacc]
        cases w with
        | none =>
          refine ⟨⟨?_, ?_⟩, ?_⟩
          · simp only [roots_set_same hi low]; exact hs.shape
          · simp only [roots_set_same hi low]; exact hs.counted
          · simp only [Machine.abs, shows_views hshape hi hv hs, hs.self]
        | some b =>
          have hs2 := hs.trans (setByte_spec (o := va % 4096) (b := b) hs.shape hs.counted ha hv hs.leaf (hrw (.inl rfl)))
          refine ⟨⟨?_, ?_⟩, ?_⟩
          · simp only [roots_set_same hi low]; exact hs2.shape
          · simp only [roots_set_same hi low]; exact hs2.counted
          · simp only [Machine.abs, shows_views hshape hi hv hs2, hs.self]

/-- **Each machine is the private memory**, step by step. -/
theorem step_refines (hshare : Forks lim share) (m : Machine) (op : Op) (h : m.Good) (hok : (m.step share op).1.Within lim) :
    (m.step share op).1.Good ∧ m.abs.step op = ((m.step share op).1.abs, (m.step share op).2) := by
  unfold Machine.step at hok ⊢
  unfold PrivateMemory.step
  rw [show m.abs.halted = m.halted from rfl]
  cases hh : m.halted with
  | true => simp only [if_true]; exact ⟨h, trivial⟩
  | false =>
    simp only [hh, false_eq_true, if_false] at hok ⊢
    cases op with
    | fork i =>
      obtain ⟨h1, h2⟩ := fork_refines hshare h (i := i) hok
      exact ⟨h1, by simp only [h2]⟩
    | read i va => exact access_refines h hok.1
    | write i va b => exact access_refines h hok.1
    | free i =>
      obtain ⟨h1, h2⟩ := free_refines h i
      exact ⟨h1, by simp only [h2]⟩

/-! ## Booting and mapping -/

theorem pmm_setEntry (s : Vm) (t i : Nat) (e : Pte) : (s.setEntry t i e).pmm = s.pmm := rfl
theorem pmm_newTable (s : Vm) : s.newTable.2.pmm = (pmmAllocFrame s.pmm).2 := rfl

theorem pmm_mapLarge (s : Vm) (t n : Nat) : (s.mapLarge t n).pmm = s.pmm := by
  unfold mapLarge
  generalize range n = l
  induction l generalizing s with
  | nil => rfl
  | cons i l ih => exact ih (s.setEntry t i ⟨i * 512, PAGE_PRESENT ||| PAGE_RW ||| PAGE_PS⟩)

theorem pmm_mapWindow (s : Vm) (p i n : Nat) : (s.mapWindow p i n).pmm = (pmmAllocFrame (pmmAllocFrame s.pmm).2).2 := by
  unfold mapWindow
  rw [pmm_mapLarge, pmm_setEntry, pmm_newTable, pmm_setEntry, pmm_newTable]

theorem pmm_adopt (s : Vm) (p : Nat) : (s.adopt p).pmm = s.pmm := rfl
theorem kpml4_adopt (s : Vm) (p : Nat) : (s.adopt p).kpml4 = p := rfl

theorem vmmInit_pmm (s : Vm) : (vmmInit s).pmm =
      (pmmAllocFrame (pmmAllocFrame (pmmAllocFrame (pmmAllocFrame (pmmAllocFrame s.pmm).2).2).2).2).2 ∧
    (vmmInit s).kpml4 = (pmmAllocFrame s.pmm).1 := by
  unfold vmmInit
  rw [pmm_adopt, kpml4_adopt, pmm_mapWindow, pmm_mapWindow, pmm_newTable]
  exact ⟨rfl, rfl⟩

theorem vmmInit_kern (s : Vm) (hok : (vmmInit s).pmm.failed = false) :
    (vmmInit s).pmm.Held (vmmInit s).kpml4 ∧ (vmmInit s).pmm.nframes = s.pmm.nframes := by
  obtain ⟨hp, hk⟩ := vmmInit_pmm s
  rw [hp] at hok ⊢
  rw [hk]
  have h4 := pmmAllocFrame_failed hok
  have h3 := pmmAllocFrame_failed h4
  have h2 := pmmAllocFrame_failed h3
  have h1 := pmmAllocFrame_failed h2
  obtain ⟨-, -, hh, -, hn, -⟩ := pmmAllocFrame_spec _ h1
  refine ⟨(((hh.alloc h2).alloc h3).alloc h4).alloc hok, ?_⟩
  rw [(pmmAllocFrame_spec _ hok).2.2.2.2.1, (pmmAllocFrame_spec _ h4).2.2.2.2.1, (pmmAllocFrame_spec _ h3).2.2.2.2.1,
    (pmmAllocFrame_spec _ h2).2.2.2.2.1, hn]

theorem pmmInit_nframes (ram : Nat) : (pmmInit ram).nframes ≤ MAX_FRAMES := by
  unfold pmmInit
  simp only
  split <;> omega

/-- **`vmm_init` brings the kernel's address space up**, whatever the boot sector left in memory. -/
theorem vmmInit_ready (mem : Nat → Nat → UInt8) (ram : Nat) (hok : (vmmInit ⟨mem, pmmInit ram, 0⟩).pmm.failed = false) :
    Ready (vmmInit ⟨mem, pmmInit ram, 0⟩) := by
  obtain ⟨hk, hn⟩ := vmmInit_kern _ hok
  exact ⟨by rw [hn]; exact pmmInit_nframes ram, hk⟩

theorem Ready.shape (h : Ready s) : Shape s [] := by
  refine ⟨nodup_nil, h.1, ?_, ?_, ?_, ?_, ?_, ?_, ?_, ?_, ?_, ?_, h.2, ?_, ?_⟩
  · intro r r' p p' t hr; cases hr
  all_goals intro a ha; cases ha

/-- **A machine before any fork is good**, when its allocations succeeded. -/
theorem Setup.good (h : Setup m) : m.vm.pmm.failed = false → m.Good := by
  induction h with
  | boot hs => exact fun _ => ⟨hs.shape, fun f => Nat.zero_le _⟩
  | @create m low hm ih =>
    intro hok
    have hok0 : m.vm.pmm.failed = false := by
      unfold vmmCreateAddressSpace at hok
      simp only at hok
      split at hok <;> exact pmmAllocFrame_failed hok
    obtain ⟨hshape, hcount⟩ := ih hok0
    obtain ⟨h0, htook, hshape1, hempty⟩ := vmmCreateAddressSpace_spec hshape hok
    have hperm : ((vmmCreateAddressSpace m.vm).1 :: roots m.spaces).Perm
        (roots (m.spaces ++ [some ⟨(vmmCreateAddressSpace m.vm).1, low⟩])) := by
      rw [roots_append]; exact (perm_append_singleton _ _).symm
    exact ⟨hshape1.perm hperm, (counted_fresh htook hshape hcount hempty).perm hperm⟩
  | @map m i sp va bytes hm hi hmod hva hnone ih =>
    intro hok
    have hok1 := vmmMapPageInto_failed _ _ _ _ _ hok
    obtain ⟨hshape, hcount⟩ := ih (pmmAllocFrame_failed hok1)
    obtain ⟨-, htook⟩ := took_allocFrame hok1 bytes
    have hzc := mem_setFrame (s := m.vm.allocFrame.2) (t := m.vm.allocFrame.1) (b := bytes)
    have hs := map_fresh hshape hcount (mem_roots hi) (by unfold userPages; omega) htook hzc hok
    exact ⟨hs.shape, hs.counted⟩

/-! ## Machines with room -/

theorem fork_room (hshare : Forks lim share) (h : m.Good)
 (hi : m.spaces[i]? = some (some sp))
    (hroom : Room m.vm.pmm (k + 4 * pagesFrom m.vm sp.pml4 0 + 1)) : Room (m.fork share i).vm.pmm k := by
  obtain ⟨hshape, hcount⟩ := h
  have ha := mem_roots hi
  have hr1 := vmmCreateAddressSpace_room hroom
  unfold Machine.fork
  simp only [hi]
  obtain ⟨h0, htook, hshape1, hempty⟩ := vmmCreateAddressSpace_spec hshape hr1.failed
  rw [if_neg h0]
  generalize (vmmCreateAddressSpace m.vm).1 = d at *
  generalize (vmmCreateAddressSpace m.vm).2 = s1 at *
  have hcount1 := counted_fresh htook hshape hcount hempty
  have had : sp.pml4 ≠ d := fun hx => (nodup_cons.1 hshape1.nodup).1 (hx ▸ ha)
  have hpages : pagesFrom s1 sp.pml4 0 = pagesFrom m.vm sp.pml4 0 :=
    Finset.sum_congr rfl (fun v _ => by rw [htook.leaf hshape ha v])
  have hr2 : Room (share s1 d sp.pml4).1.pmm k := hshare.room s1 (d :: roots m.spaces) sp.pml4 d k hshape1 hcount1
    (mem_cons_of_mem _ ha) mem_cons_self had (fun v _ => leaf_of_empty hempty v) (by rw [hpages]; exact hr1)
  split
  next s heq => rw [heq] at hr2; exact hr2
  next s heq => rw [heq] at hr2; exact hr2

theorem access_room (h : m.Good) (hroom : Room m.vm.pmm (k + 4)) : Room (m.access i va w).1.vm.pmm k := by
  unfold Machine.access
  split
  next sp hi =>
    have hr := userAccess_room h.1 (mem_roots hi) va sp.stackLow w.isSome hroom
    split
    next s heq => rw [heq] at hr; exact hr
    next s low f heq =>
      rw [heq] at hr
      cases w <;> exact hr
  next => exact hroom.mono (by omega)

theorem spaces_access (m : Machine) (i va : Nat) (w : Option UInt8) : (m.access i va w).1.spaces.length = m.spaces.length := by
  unfold Machine.access
  split
  · split
    · rfl
    · cases w <;> simp
  · rfl

theorem spaces_fork (share : Vm → Nat → Nat → Vm × Bool) (m : Machine) (i : Nat) :
    (m.fork share i).spaces.length ≤ m.spaces.length + 1 := by
  unfold Machine.fork
  split
  · simp only
    split
    · simp
    · split <;> simp
  · simp

theorem mappers_le (s : Vm) (l : List (Option Space)) (f : Nat) : mappers s (roots l) f ≤ l.length :=
  (countP_le_length).trans (length_filterMap_le _ _)

theorem access_within (hshare : Forks lim share)
 {n : Nat} (hlim : ∀ j ≤ n, lim j) (hg : m.Good) (hroom : Room m.vm.pmm (k + 4)) (hl : m.spaces.length ≤ n)
    (op : Op) (hop : (∃ i va, op = .read i va) ∨ ∃ i va b, op = .write i va b) :
    let r := m.step share op
    r.1.Good ∧ r.1.Within lim ∧ Room r.1.vm.pmm k ∧ r.1.spaces.length ≤ n := by
  have key : Room (m.step share op).1.vm.pmm k ∧ (m.step share op).1.spaces.length ≤ n := by
    unfold Machine.step
    split
    · exact ⟨hroom.mono (by omega), hl⟩
    · rcases hop with ⟨i, va, rfl⟩ | ⟨i, va, b, rfl⟩
      · exact ⟨access_room hg hroom, by rw [spaces_access]; exact hl⟩
      · exact ⟨access_room hg hroom, by rw [spaces_access]; exact hl⟩
  have hw : (m.step share op).1.Within lim := ⟨key.1.failed, fun f => hlim _ ((mappers_le _ _ f).trans key.2)⟩
  exact ⟨(step_refines hshare m op hg hw).1, hw, key⟩

theorem step_fork (share : Vm → Nat → Nat → Vm × Bool) (hh : m.halted = false) (i : Nat) :
    m.step share (.fork i) = (m.fork share i, .done) := by
  unfold Machine.step; simp only [hh, false_eq_true, if_false]

theorem fork_write_read_within (hshare : Forks lim share)
    (hlim : ∀ j ≤ 2, lim j) (hg : m.Good) (hh : m.halted = false) (hsp : m.spaces = [some sp])
    (hroom : Room m.vm.pmm (8 + 4 * pagesFrom m.vm sp.pml4 0 + 1)) (va : Nat) (b : UInt8) :
    Always (Machine.step share) (Machine.Within lim) m [.fork 0, .write 0 va b, .read 1 va] := by
  have hs1 := step_fork share hh 0
  have hr1 : Room (m.fork share 0).vm.pmm 8 := fork_room hshare hg (i := 0) (by rw [hsp]; rfl) hroom
  have hl0 : m.spaces.length = 1 := by rw [hsp]; rfl
  have hl1 : (m.fork share 0).spaces.length ≤ 2 := by
    have := spaces_fork share m 0
    omega
  have hw1 : (m.step share (.fork 0)).1.Within lim := by
    rw [hs1]; exact ⟨hr1.failed, fun f => hlim _ ((mappers_le _ _ f).trans hl1)⟩
  have hg1 := (step_refines hshare m (.fork 0) hg hw1).1
  rw [hs1] at hg1
  obtain ⟨hg2, hw2, hr2, hl2⟩ := access_within hshare hlim hg1 (k := 4) hr1 hl1 (.write 0 va b) (.inr ⟨0, va, b, rfl⟩)
  obtain ⟨-, hw3, -, -⟩ := access_within hshare hlim hg2 (k := 0) hr2 hl2 (.read 1 va) (.inl ⟨1, va, rfl⟩)
  refine cons ⟨hroom.failed, fun f => hlim _ ((mappers_le _ _ f).trans (by omega))⟩ (cons hw1 ?_)
  rw [hs1]
  exact cons hw2 (nil hw3)

/-- **Copy-on-write fork refines eager-copy fork.**  Over any run of forks, user reads, user writes and teardowns from a
machine whose pages were mapped one by one, the two ways to fork answer every operation alike. -/
theorem cow_reads_as_copy (m : Machine) (hm : Setup m) (ops : List Op)
    (hcow : Always (Machine.step vmmCowUserSpace) (Machine.Within (· ≤ 255)) m ops)
    (hcopy : Always (Machine.step vmmCopyUserSpace) (fun m => m.vm.pmm.failed = false) m ops) :
    (run (Machine.step vmmCowUserSpace) m ops).2 = (run (Machine.step vmmCopyUserSpace) m ops).2 := by
  have hgood := hm.good hcow.head.1
  have h1 := (run_refines (step_refines vmmCowUserSpace_forks) ops m hgood hcow).2
  have h2 := (run_refines (step_refines vmmCopyUserSpace_forks) ops m hgood
    (fun pre hpre => ⟨hcopy pre hpre, fun _ => trivial⟩)).2
  rw [h1] at h2
  exact (Prod.mk.inj h2).2

def onePage : Machine :=
  let r := vmmCreateAddressSpace (vmmInit ⟨fun _ _ => 0, pmmInit (128 * 1024 * 1024), 0⟩)
  let c := r.2.allocFrame
  ⟨(vmmMapPageInto (c.2.setFrame c.1 (fun _ => 1)) r.1 0 c.1 (PAGE_RW ||| PAGE_USER)).1, [some ⟨r.1, USTACK_BASE⟩], false⟩

theorem vmmInit_room : Room (vmmInit ⟨fun _ _ => 0, pmmInit (128 * 1024 * 1024), 0⟩).pmm 3579 := by
  rw [(vmmInit_pmm _).1]
  exact ((((pmmInit_room.alloc.2).alloc.2).alloc.2).alloc.2).alloc.2

theorem onePage_setup : Setup onePage ∧ Room onePage.vm.pmm 3570 ∧
    ∃ sp, onePage.spaces = [some sp] ∧ pagesFrom onePage.vm sp.pml4 0 ≤ 1 ∧ onePage.vm.page sp.pml4 0 = some (fun _ => 1) := by
  unfold onePage
  have hr := vmmInit_room
  have hboot := Setup.boot (vmmInit_ready _ _ hr.failed)
  generalize vmmInit ⟨fun _ _ => 0, pmmInit (128 * 1024 * 1024), 0⟩ = s at *
  have hs := hboot.good hr.failed
  have hcreate := Setup.create USTACK_BASE hboot
  have hr1 := vmmCreateAddressSpace_room hr
  obtain ⟨-, -, hshape, hempty⟩ := vmmCreateAddressSpace_spec hs.1 hr1.failed
  set r := vmmCreateAddressSpace s
  have hnone : ∀ v, r.2.leaf r.1 v = none := leaf_of_empty hempty
  have hcount := (hcreate.good hr1.failed).2
  simp only at hcreate hcount ⊢
  generalize r.1 = d at *
  generalize r.2 = t at *
  have hmap := @Setup.map _ 0 ⟨d, USTACK_BASE⟩ 0 (fun _ => 1) hcreate rfl rfl (by decide) (hnone 0)
  have hr2 := hr1.alloc
  have hr3 : Room (vmmMapPageInto (t.allocFrame.2.setFrame t.allocFrame.1 (fun _ => 1)) d 0 t.allocFrame.1
    (PAGE_RW ||| PAGE_USER)).1.pmm 3570 := vmmMapPageInto_room (hr2.2.mono (by omega))
  obtain ⟨-, htook⟩ := took_allocFrame (s := t) hr2.2.failed (fun _ => 1)
  have hd : d ∈ [d] := mem_singleton.2 rfl
  have m := htook.mapped hshape hd (by unfold userPages; decide : 0 / 4096 < userPages) (by decide) (by decide)
    (vmmMapPageInto_true hr3.failed)
  refine ⟨hmap, hr3, ⟨d, USTACK_BASE⟩, rfl, pagesFrom_le_one (v := 0) (fun w hw hw0 => ?_), ?_⟩
  · rw [m.leaf d hd w hw (fun hx => hw0 hx.2), htook.leaf hshape hd w, hnone w]
  · have hself := m.self
    rw [Nat.zero_div] at hself
    rw [page, hself, map_some, m.mem _ htook.heldNew.used ((htook.fresh hshape).1 d hd), mem_setFrame]

theorem cow_reads_as_copy_onePage : (run (Machine.step vmmCowUserSpace) onePage [.fork 0, .write 0 0 7, .read 1 0]).2 =
      (run (Machine.step vmmCopyUserSpace) onePage [.fork 0, .write 0 0 7, .read 1 0]).2 := by
  obtain ⟨hsetup, hroom, sp, hsp, hpages, -⟩ := onePage_setup
  have hg := hsetup.good hroom.failed
  have hr : Room onePage.vm.pmm (8 + 4 * pagesFrom onePage.vm sp.pml4 0 + 1) := hroom.mono (by omega)
  exact cow_reads_as_copy onePage hsetup _
    (fork_write_read_within vmmCowUserSpace_forks (fun n hn => (by omega : n ≤ 255)) hg rfl hsp hr 0 7)
    (fun pre hpre => (fork_write_read_within vmmCopyUserSpace_forks (fun _ _ => trivial) hg rfl hsp hr 0 7 pre hpre).1)

end Noxis
