import Noxis.Volume
import Noxis.Owned
/-!
# VolumeInv — who owns which block

A file holds blocks through its ten direct pointers, its indirect pointer and the 128 pointers listed in the indirect
block (`Slot`, `ptr`).  `Wf v A T` is the structural invariant of a volume, seen with the inode table `T` and the
allocated inodes `A`: the metadata blocks are marked used, the pointers of the inodes in `A` are `Owned`, and the two
free counters count the clear bits.  `T` is a parameter because the code works on a copy of an inode for a while before
it writes it back, and `A` because `noxfs_unlink` frees the blocks of an inode before the inode itself.
-/
namespace Noxis

open Option Function Bitmap Vol Nat

/-! ## Fields of an inode -/

namespace Inode

section
variable (n : Inode)
include n

theorem block_setBlock (k j b : Nat) (hb : b < 2 ^ 32) : (n.setBlock k b).block j = if j = k then b else n.block j := by
  unfold setBlock block
  by_cases h : j = k
  · rw [if_pos h, h, leRead_leWrite]
    exact mod_eq_of_lt hb
  · rw [if_neg h]
    exact leRead_leWrite_of_disjoint (by omega)

theorem indirect_setBlock (k b : Nat) (hk : k < 10) : (n.setBlock k b).indirect = n.indirect :=
  leRead_leWrite_of_disjoint (by omega)

theorem size_setBlock (k b : Nat) : (n.setBlock k b).size = n.size :=
  leRead_leWrite_of_disjoint (by omega)

theorem mode_setBlock (k b : Nat) : (n.setBlock k b).mode = n.mode :=
  leRead_leWrite_of_disjoint (by omega)

theorem links_setBlock (k b : Nat) (hk : k < 10) : (n.setBlock k b).links = n.links :=
  leRead_leWrite_of_disjoint (by omega)

theorem block_setIndirect (b k : Nat) (hk : k < 10) : (n.setIndirect b).block k = n.block k :=
  leRead_leWrite_of_disjoint (by omega)

theorem indirect_setIndirect (b : Nat) (hb : b < 2 ^ 32) : (n.setIndirect b).indirect = b := by
  unfold setIndirect indirect
  rw [leRead_leWrite]
  exact mod_eq_of_lt hb

theorem size_setIndirect (b : Nat) : (n.setIndirect b).size = n.size :=
  leRead_leWrite_of_disjoint (by omega)

theorem mode_setIndirect (b : Nat) : (n.setIndirect b).mode = n.mode :=
  leRead_leWrite_of_disjoint (by omega)

theorem links_setIndirect (b : Nat) : (n.setIndirect b).links = n.links :=
  leRead_leWrite_of_disjoint (by omega)

theorem block_setSize (z k : Nat) : (n.setSize z).block k = n.block k :=
  leRead_leWrite_of_disjoint (by omega)

theorem indirect_setSize (z : Nat) : (n.setSize z).indirect = n.indirect :=
  leRead_leWrite_of_disjoint (by omega)

theorem size_setSize (z : Nat) (hz : z < 2 ^ 32) : (n.setSize z).size = z := by
  unfold setSize size
  rw [leRead_leWrite]
  exact mod_eq_of_lt hz

theorem mode_setSize (z : Nat) : (n.setSize z).mode = n.mode :=
  leRead_leWrite_of_disjoint (by omega)

theorem links_setSize (z : Nat) : (n.setSize z).links = n.links :=
  leRead_leWrite_of_disjoint (by omega)

end

end Inode

/-! ## Pointer slots -/

inductive Slot where
  | direct (k : Nat)
  | indirect
  | listed (k : Nat)
  deriving DecidableEq

/-- The pointer inode `n` has in a slot, the indirect block being read from disk `d`. -/
def ptr (d : Nat → Nat → UInt8) (n : Inode) : Slot → Nat
  | .direct k => if k < 10 then n.block k else 0
  | .indirect => n.indirect
  | .listed k => if k < 128 ∧ n.indirect ≠ 0 then leRead (d n.indirect) (4 * k) 4 else 0

def slotOf (l : Nat) : Slot := if l < 10 then .direct l else .listed (l - 10)

theorem slotOf_inj {l k : Nat} (h : slotOf l = slotOf k) : l = k := by
  unfold slotOf at h
  split at h <;> split at h <;> simp at h <;> omega

theorem slotOf_ne_indirect (l : Nat) : slotOf l ≠ .indirect := by
  unfold slotOf
  split <;> simp

theorem ptr_congr {d d' : Nat → Nat → UInt8} {n : Inode} (h : n.indirect ≠ 0 → d' n.indirect = d n.indirect) :
    ptr d' n = ptr d n := by
  funext s
  cases s with
  | direct k => rfl
  | indirect => rfl
  | listed k =>
    simp only [ptr]
    by_cases hc : k < 128 ∧ n.indirect ≠ 0
    · rw [if_pos hc, if_pos hc, h hc.2]
    · rw [if_neg hc, if_neg hc]

theorem ptr_congr_inode (d : Nat → Nat → UInt8) {n n' : Inode} (hb : ∀ k < 10, n'.block k = n.block k)
    (hi : n'.indirect = n.indirect) : ptr d n' = ptr d n := by
  funext s
  cases s with
  | direct k =>
    simp only [ptr]
    by_cases hk : k < 10
    · rw [if_pos hk, if_pos hk, hb k hk]
    · rw [if_neg hk, if_neg hk]
  | indirect => exact hi
  | listed k =>
    simp only [ptr]
    rw [hi]

theorem ptr_setSize (d : Nat → Nat → UInt8) (n : Inode) (z : Nat) : ptr d (n.setSize z) = ptr d n :=
  ptr_congr_inode d (fun k _ => n.block_setSize z k) (n.indirect_setSize z)

theorem ptr_setBlock (d : Nat → Nat → UInt8) (n : Inode) (k b : Nat) (hk : k < 10) (hb : b < 2 ^ 32) (s : Slot) :
    ptr d (n.setBlock k b) s = if s = .direct k then b else ptr d n s := by
  cases s with
  | direct j =>
    simp only [ptr]
    rw [n.block_setBlock k j b hb]
    by_cases hj : j = k
    · subst hj
      simp [hk]
    · simp [hj]
  | indirect => exact n.indirect_setBlock k b hk
  | listed j =>
    simp only [ptr]
    rw [n.indirect_setBlock k b hk]
    simp

theorem ptr_setIndirect (d d' : Nat → Nat → UInt8) (n : Inode) (b : Nat) (hb : b < 2 ^ 32) (h0 : n.indirect = 0)
    (hz : d' b = fun _ => 0) (s : Slot) : ptr d' (n.setIndirect b) s = if s = .indirect then b else ptr d n s := by
  cases s with
  | direct k =>
    simp only [ptr]
    by_cases hk : k < 10
    · simp [hk, n.block_setIndirect b k hk]
    · simp [hk]
  | indirect => simp [ptr, n.indirect_setIndirect b hb]
  | listed k =>
    simp only [ptr]
    rw [n.indirect_setIndirect b hb, hz, leRead_zero]
    simp [h0]

theorem ptr_store_listed (d d' : Nat → Nat → UInt8) (n : Inode) (k b : Nat) (hk : k < 128) (hb : b < 2 ^ 32)
    (h0 : n.indirect ≠ 0) (hd : d' n.indirect = leWrite (d n.indirect) (4 * k) 4 b) (s : Slot) :
    ptr d' n s = if s = .listed k then b else ptr d n s := by
  cases s with
  | direct j => simp [ptr]
  | indirect => simp [ptr]
  | listed j =>
    simp only [ptr]
    by_cases hj : j = k
    · subst hj
      rw [if_pos ⟨hk, h0⟩, if_pos rfl, hd, leRead_leWrite]
      exact mod_eq_of_lt hb
    · have hne : Slot.listed j ≠ .listed k := by simpa using hj
      rw [if_neg hne, hd, leRead_leWrite_of_disjoint (by omega)]

/-! ## The invariant -/

def Vol.used (v : Vol) (b : Nat) : Bool := bitAt (v.disk v.sb.blkBmp) b

def Vol.inUse (v : Vol) (i : Nat) : Bool := bitAt (v.disk v.sb.inoBmp) i

def Vol.Allocated (v : Vol) (i : Nat) : Prop := i < v.sb.inodeCount ∧ v.inUse i = true

def Sb.InData (b : Sb) (n : Nat) : Prop := b.dataStart ≤ n ∧ n < b.blockCount

/-- The on-disk layout: one block for each bitmap, then the inode table, then the data. -/
structure Layout (b : Sb) : Prop where
  blkBmp : b.blkBmp = 1
  inoBmp : b.inoBmp = 2
  inoTbl : b.inoTbl = 3
  table : 3 + (b.inodeCount + 7) / 8 ≤ b.dataStart
  data : b.dataStart ≤ b.blockCount
  blocks : b.blockCount ≤ 4096
  inodes : b.inodeCount ≤ 4096

/-- **The structural invariant**, for the inodes in `A` with the contents `T`. -/
structure Wf (v : Vol) (A : Nat → Prop) (T : Nat → Inode) : Prop where
  layout : Layout v.sb
  metadata : ∀ b < v.sb.dataStart, v.used b = true
  owned : Owned v.used v.sb.InData A (fun i => ptr v.disk (T i))
  freeBlocks : v.sb.freeBlocks = clearCount (v.disk v.sb.blkBmp) v.sb.blockCount
  freeInodes : v.sb.freeInodes = clearCount (v.disk v.sb.inoBmp) v.sb.inodeCount

section
variable {v v1 v2 : Vol} {A : Nat → Prop} {T : Nat → Inode} {i b : Nat} {n n1 : Inode} {s : Slot}

theorem Wf.ptr_gt (h : Wf v A T) (hi : A i) (h0 : ptr v.disk (T i) s ≠ 0) : 2 < ptr v.disk (T i) s := by
  have hd := (h.owned.inData i s hi h0).1
  have ht := h.layout.table
  omega

theorem Wf.ge_of_free (h : Wf v A T) (hb : v.used b = false) : v.sb.dataStart ≤ b := by
  by_contra hlt
  rw [h.metadata b (by omega)] at hb
  cases hb

/-- What `_balloc` does when it answers block `b`. -/
structure Vol.Took (v v1 : Vol) (b : Nat) : Prop where
  sb : v1.sb = { v.sb with freeBlocks := v.sb.freeBlocks - 1 }
  some : 0 < v.sb.freeBlocks
  lt : b < v.sb.blockCount
  fresh : v.used b = false
  bmp : v1.disk v.sb.blkBmp = setBit (v.disk v.sb.blkBmp) b
  disk : ∀ c, c ≠ 0 → c ≠ v.sb.blkBmp → v1.disk c = v.disk c

theorem Vol.balloc_took (hbmp : v.sb.blkBmp ≠ 0) (h : v.balloc = some (v1, b)) : v.Took v1 b := by
  unfold balloc at h
  split at h
  · cases h
  rename_i hfree
  obtain ⟨r, hr, heq⟩ := map_eq_some_iff.1 h
  obtain ⟨idx, hidx, rfl⟩ := map_eq_some_iff.1 hr
  obtain ⟨rfl, rfl⟩ := Prod.mk.inj heq
  obtain ⟨hlt, -, hclear, -⟩ := firstClear_some hidx
  constructor
  · rfl
  · omega
  · exact hlt
  · exact hclear
  · simp [sbWrite, setFreeBlocks, put, hbmp]
  · intro c h0 h1
    simp [sbWrite, setFreeBlocks, put, h0, h1]

theorem Wf.balloc_none (h : Wf v A T) (hn : v.balloc = none) : v.sb.freeBlocks = 0 := by
  by_contra hfree
  unfold balloc at hn
  rw [if_neg hfree, map_eq_none_iff] at hn
  have hset := firstClear_none (map_eq_none_iff.1 hn)
  rw [min_eq_left (by have := h.layout.blocks; omega)] at hset
  rw [h.freeBlocks, clearCount_eq_zero hset] at hfree
  exact hfree rfl

theorem Vol.Took.used_eq (ht : v.Took v1 b) (c : Nat) : v1.used c = (decide (c = b) || v.used c) := by
  unfold used
  rw [ht.sb, ht.bmp]
  exact bitAt_setBit

/-- **A block from `_balloc` linked into an empty slot** of inode `i` keeps the invariant.  The store that links it may
touch the new block and the indirect block of `i`. -/
theorem Wf.link (h : Wf v A (update T i n)) (hi : A i) (ht : v.Took v1 b) (hsb : v2.sb = v1.sb)
    (hdisk : ∀ c, c ≠ b → c ≠ n.indirect → v2.disk c = v1.disk c)
    (hptr : ∀ t, ptr v2.disk n1 t = if t = s then b else ptr v.disk n t) : Wf v2 A (update T i n1) := by
  have hge := h.ge_of_free ht.fresh
  have htab := h.layout.table
  have hind : n.indirect ≠ 0 → 2 < n.indirect := by
    intro h0
    have hp := h.ptr_gt (s := .indirect) hi (by simpa [ptr] using h0)
    simpa [ptr] using hp
  have hsb' : v2.sb = { v.sb with freeBlocks := v.sb.freeBlocks - 1 } := hsb.trans ht.sb
  have hbmp : v2.disk v.sb.blkBmp = setBit (v.disk v.sb.blkBmp) b := by
    rw [← ht.bmp]
    exact hdisk _ (by rw [h.layout.blkBmp]; omega) (by rw [h.layout.blkBmp]; omega)
  have hused : ∀ c, v2.used c = (decide (c = b) || v.used c) := by
    intro c
    unfold used
    rw [hsb', hbmp]
    exact bitAt_setBit
  have hother : ∀ j, A j → j ≠ i → ptr v2.disk (T j) = ptr v.disk (T j) := by
    intro j hj hne
    apply ptr_congr
    intro h0
    have hTj : update T i n j = T j := update_of_ne hne _ _
    have hmark := h.owned.marked j .indirect hj (by simpa [ptr, hTj] using h0)
    have hgt := h.ptr_gt (s := .indirect) hj (by simpa [ptr, hTj] using h0)
    simp only [ptr, hTj] at hmark hgt
    have hnb : (T j).indirect ≠ b := by
      rintro heq
      rw [heq, ht.fresh] at hmark
      cases hmark
    have hni : (T j).indirect ≠ n.indirect := by
      intro heq
      exact hne (h.owned.once j .indirect i .indirect hj hi (by simpa [ptr, hTj] using h0) (by simpa [ptr, hTj] using heq)).1
    rw [hdisk _ hnb hni]
    exact ht.disk _ h0 (by rw [h.layout.blkBmp]; omega)
  refine ⟨?_, ?_, ?_, ?_, ?_⟩
  · rw [hsb']
    exact ⟨h.layout.blkBmp, h.layout.inoBmp, h.layout.inoTbl, h.layout.table, h.layout.data, h.layout.blocks, h.layout.inodes⟩
  · intro c hc
    rw [hused, h.metadata c (by rw [hsb'] at hc; exact hc), Bool.or_true]
  · rw [show v2.sb.InData = v.sb.InData by unfold Sb.InData; rw [hsb']]
    refine h.owned.link (s := s) (i := i) ht.fresh (by omega) ⟨hge, ht.lt⟩ (fun c hc => by rw [hused, hc, Bool.or_true])
      (by rw [hused]; simp) ?_ ?_
    · rw [update_self, hptr, if_pos rfl]
    · intro j t hj hc
      by_cases hji : j = i
      · subst hji
        rw [update_self, update_self, hptr, if_neg (fun he => hc ⟨rfl, he⟩)]
      · rw [update_of_ne hji, update_of_ne hji, hother j hj hji]
  · rw [hsb', hbmp]
    have hcount := clearCount_setBit (v.disk v.sb.blkBmp) v.sb.blockCount b ht.lt ht.fresh
    have := h.freeBlocks
    show v.sb.freeBlocks - 1 = clearCount (setBit (v.disk v.sb.blkBmp) b) v.sb.blockCount
    omega
  · rw [hsb']
    have hino : v2.disk v.sb.inoBmp = v.disk v.sb.inoBmp := by
      rw [h.layout.inoBmp, hdisk 2 (by omega) (by omega), ht.disk 2 (by omega) (by rw [h.layout.blkBmp]; omega)]
    show v.sb.freeInodes = clearCount (v2.disk v.sb.inoBmp) v.sb.inodeCount
    rw [hino]
    exact h.freeInodes

end

end Noxis
