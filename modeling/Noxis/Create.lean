import Noxis.DirSpec
/-!
# Create — new inodes and their entries

`_ialloc` gives an inode without blocks (`Vol.TookInode`); `noxfs_mkdir` gives it one block with `.` and `..`.  Up to there
the volume has one more inode and every file is as before (`Sprung`); then `_dir_add_entry` appends one record to the parent.
`creatAt_cases` and `mkdir_cases` say so for `noxfs_creat_at` and `noxfs_mkdir`.
-/
namespace Noxis

open Option Function Bitmap Inode Vol

section
variable {v v1 : Vol} {ino mode b : Nat}

/-! ## `_ialloc` -/

structure Vol.TookInode (v v1 : Vol) (ino mode : Nat) : Prop where
  sb : v1.sb = { v.sb with freeInodes := v.sb.freeInodes - 1 }
  some : 0 < v.sb.freeInodes
  lt : ino < v.sb.inodeCount
  fresh : v.inUse ino = false
  bmp : v1.disk v.sb.inoBmp = setBit (v.disk v.sb.inoBmp) ino
  disk : ∀ c, c ≠ 0 → c ≠ v.sb.inoBmp → c ≠ v.sb.inoTbl + ino / 8 → v1.disk c = v.disk c
  inode : ∀ j, v1.inode j = if j = ino then (Inode.new mode).trunc else v.inode j

/-- The slots of the inode table after `_ialloc`, where the bitmap and the superblock are not blocks of the table. -/
theorem Vol.ialloc_inode (h : v.ialloc mode = some (v1, ino)) {j : Nat} (hb : v.sb.inoTbl + j / 8 ≠ v.sb.inoBmp)
    (h0 : v.sb.inoTbl + j / 8 ≠ 0) : v1.inode j = if j = ino then (new mode).trunc else v.inode j := by
  unfold ialloc at h
  split at h
  · cases h
  obtain ⟨r, hr, heq⟩ := map_eq_some_iff.1 h
  obtain ⟨idx, -, rfl⟩ := map_eq_some_iff.1 hr
  obtain ⟨rfl, rfl⟩ := Prod.mk.inj heq
  have hw : (v.put v.sb.inoBmp (setBit (v.disk v.sb.inoBmp) idx)).inode j = v.inode j :=
    inode_congr rfl (update_of_ne hb _ _)
  rw [← hw, ← inode_putInode]
  exact inode_congr rfl (update_of_ne h0 _ _)

theorem Vol.ialloc_took (hl : Layout v.sb) (h : v.ialloc mode = some (v1, ino)) : v.TookInode v1 ino mode := by
  have hslot := @ialloc_inode v v1 ino mode h
  unfold ialloc at h
  split at h
  · cases h
  rename_i hfree
  obtain ⟨r, hr, heq⟩ := map_eq_some_iff.1 h
  obtain ⟨idx, hidx, rfl⟩ := map_eq_some_iff.1 hr
  obtain ⟨rfl, rfl⟩ := Prod.mk.inj heq
  obtain ⟨hlt, -, hclear, -⟩ := firstClear_some hidx
  have hbmp := hl.inoBmp
  have htbl := hl.inoTbl
  have hne : v.sb.inoBmp ≠ v.sb.inoTbl + idx / 8 := by omega
  refine ⟨rfl, Nat.pos_of_ne_zero hfree, hlt, hclear, ?_, ?_, ?_⟩
  · have h0 : v.sb.inoBmp ≠ 0 := by omega
    simp [sbWrite, setFreeInodes, putInode, put, h0, hne]
  · intro c h0 h1 h2
    simp [sbWrite, setFreeInodes, putInode, put, h0, h1, h2]
  · exact fun j => hslot (by omega) (by omega)

/-- **Inode slots are independent.**  What `_iwrite` stores `_iread` returns, 64 bytes of it, every other slot and every
block outside the table is as before, and `_ialloc` writes the slot of the inode it returns only. -/
theorem inode_slots_independent (v : Vol) (ino mode : Nat) (x : Inode) (hi : ino < v.sb.inodeCount) :
    ((v.iwrite ino x).2 = .ok ∧ (v.iwrite ino x).1.iread ino = some x.trunc ∧
      (∀ j ≠ ino, (v.iwrite ino x).1.iread j = v.iread j) ∧
      ∀ b, (∀ j < v.sb.inodeCount, b ≠ v.sb.inoTbl + j / 8) → (v.iwrite ino x).1.disk b = v.disk b) ∧
    ((∀ j < v.sb.inodeCount, v.sb.inoTbl + j / 8 ≠ v.sb.inoBmp ∧ v.sb.inoTbl + j / 8 ≠ 0) →
      ∀ v1 i, v.ialloc mode = some (v1, i) → v1.iread i = some (Inode.new mode).trunc ∧ ∀ j ≠ i, v1.iread j = v.iread j) := by
  have hread : ∀ w : Vol, w.sb.inodeCount = v.sb.inodeCount → ∀ j, (j < v.sb.inodeCount → w.inode j = v.inode j) →
      w.iread j = v.iread j := by
    intro w hw j hj
    unfold iread
    rw [hw]
    split
    · rfl
    · rw [hj (by omega)]
  have hwrite : v.iwrite ino x = (v.putInode ino x, .ok) := if_neg (not_le.2 hi)
  rw [hwrite]
  refine ⟨⟨rfl, ?_, fun j hj => hread (v.putInode ino x) rfl j (fun _ => by rw [inode_putInode, if_neg hj]),
    fun b hb => update_of_ne (hb ino hi) _ _⟩, fun htbl v1 i h => ?_⟩
  · rw [iread_of_lt (show ino < (v.putInode ino x).sb.inodeCount from hi), inode_putInode, if_pos rfl]
  · obtain ⟨hc, hlt⟩ : v1.sb.inodeCount = v.sb.inodeCount ∧ i < v.sb.inodeCount := by
      unfold ialloc at h
      split at h
      · cases h
      · obtain ⟨r, hr, heq⟩ := map_eq_some_iff.1 h
        obtain ⟨idx, hidx, rfl⟩ := map_eq_some_iff.1 hr
        obtain ⟨rfl, rfl⟩ := Prod.mk.inj heq
        exact ⟨rfl, (firstClear_some hidx).1⟩
    refine ⟨?_, fun j hj => hread v1 hc j (fun hlt => ?_)⟩
    · rw [iread_of_lt (hc ▸ hlt), ialloc_inode h (htbl i hlt).1 (htbl i hlt).2, if_pos rfl]
    · rw [ialloc_inode h (htbl j hlt).1 (htbl j hlt).2, if_neg hj]

theorem inode_slots_independent_blank : let v : Vol := ⟨fun _ _ => 0, ⟨noxfsMagic, 16, 16, 11, 16, 1, 2, 3, 5, 0, fun _ => 0⟩⟩
    (v.iwrite 9 (Inode.new modeDir)).1.iread 9 = some (Inode.new modeDir).trunc ∧
      ∀ v1, v.ialloc modeFile = some (v1, 0) → v1.iread 0 = some (Inode.new modeFile).trunc :=
  have h := inode_slots_independent _ 9 modeFile (new modeDir) (by decide)
  ⟨h.1.2.1, fun v1 h1 => (h.2 (fun j _ => by dsimp only; omega) v1 0 h1).1⟩

theorem Wf.ialloc_none {A : Nat → Prop} {T : Nat → Inode} (h : Wf v A T) (hn : v.ialloc mode = none) :
    v.sb.freeInodes = 0 := by
  by_contra hfree
  unfold ialloc at hn
  rw [if_neg hfree, map_eq_none_iff] at hn
  have hset := firstClear_none (map_eq_none_iff.1 hn)
  rw [Nat.min_eq_left (by have := h.layout.inodes; omega)] at hset
  rw [h.freeInodes, clearCount_eq_zero hset] at hfree
  exact hfree rfl

/-! ## An inode without blocks -/

theorem Inode.new_size (m : Nat) : (new m).size = 0 := by
  unfold new setLinks setMode size
  rw [leRead_leWrite_of_disjoint (by omega), leRead_leWrite_of_disjoint (by omega), leRead_zero]

theorem Inode.new_mode {m : Nat} (hm : m < 2 ^ 16) : (new m).mode = m := by
  unfold new setLinks setMode mode
  rw [leRead_leWrite_of_disjoint (by omega), leRead_leWrite]
  exact Nat.mod_eq_of_lt hm

theorem Inode.new_block (m k : Nat) (hk : k < 10) : (new m).block k = 0 := by
  unfold new setLinks setMode block
  rw [leRead_leWrite_of_disjoint (by omega), leRead_leWrite_of_disjoint (by omega), leRead_zero]

theorem Inode.new_indirect (m : Nat) : (new m).indirect = 0 := by
  unfold new setLinks setMode indirect
  rw [leRead_leWrite_of_disjoint (by omega), leRead_leWrite_of_disjoint (by omega), leRead_zero]

theorem ptr_new (d : Nat → Nat → UInt8) (m : Nat) (t : Slot) : ptr d (new m) t = 0 := by
  cases t with
  | direct k =>
    by_cases hk : k < 10
    · exact (if_pos hk).trans (new_block m k hk)
    · exact if_neg hk
  | indirect => exact new_indirect m
  | listed k => exact if_neg (fun hc => hc.2 (new_indirect m))

theorem Vol.TookInode.ptr_zero (ht : v.TookInode v1 ino mode) (d : Nat → Nat → UInt8) (t : Slot) :
    ptr d (v1.inode ino) t = 0 := by
  rw [ht.inode, if_pos rfl, ptr_trunc]
  exact ptr_new d mode t

theorem Vol.TookInode.inUse_eq (ht : v.TookInode v1 ino mode) (j : Nat) : v1.inUse j = (decide (j = ino) || v.inUse j) := by
  unfold inUse
  rw [ht.sb, ht.bmp]
  exact bitAt_setBit

/-! ## One more inode -/

/-- The volume has one more inode, `ino`; every file is as before. -/
structure Sprung (v v1 : Vol) (ino : Nat) : Prop where
  sound : v1.Sound
  sb : v1.sb = { v.sb with freeBlocks := v1.sb.freeBlocks, freeInodes := v1.sb.freeInodes }
  lt : ino < v.sb.inodeCount
  fresh : v.inUse ino = false
  inUse : ∀ j, v1.inUse j = (decide (j = ino) || v.inUse j)
  same : ∀ j, v.Allocated j → SameFile v v1 j

theorem Sprung.count (h : Sprung v v1 ino) : v1.sb.inodeCount = v.sb.inodeCount := by rw [h.sb]

theorem Sprung.allocated (h : Sprung v v1 ino) (j : Nat) : v1.Allocated j ↔ v.Allocated j ∨ j = ino := by
  unfold Vol.Allocated
  rw [h.count, h.inUse]
  have := h.lt
  by_cases hj : j = ino
  · subst hj
    simp [this]
  · simp [hj]

theorem Sprung.ne (h : Sprung v v1 ino) {j : Nat} (hj : v.Allocated j) : j ≠ ino := by
  rintro rfl
  exact absurd (h.fresh.symm.trans hj.2) (by decide)

theorem Vol.TookInode.same (h : v.Sound) (ht : v.TookInode v1 ino mode) {j : Nat} (hj : v.Allocated j) : SameFile v v1 j := by
  have hne : j ≠ ino := by
    rintro rfl
    exact absurd (ht.fresh.symm.trans hj.2) (by decide)
  have hblk : ∀ t, ptr v.disk (v.inode j) t ≠ 0 → v1.disk (ptr v.disk (v.inode j) t) = v.disk (ptr v.disk (v.inode j) t) := by
    intro t h0
    have hin := (h.owned.inData j t hj h0).1
    have htab := h.table_block ht.lt
    exact ht.disk _ h0 (by rw [h.layout.inoBmp]; omega) (by omega)
  exact ⟨by rw [ht.inode, if_neg hne], ptr_congr fun h0 => hblk .indirect h0, hblk⟩

theorem Vol.TookInode.sprung (h : v.Sound) (ht : v.TookInode v1 ino mode) : Sprung v v1 ino := by
  have htab := h.table_block ht.lt
  have hblk : v1.disk v.sb.blkBmp = v.disk v.sb.blkBmp :=
    ht.disk _ (by rw [h.layout.blkBmp]; omega) (by rw [h.layout.blkBmp, h.layout.inoBmp]; omega) (by rw [h.layout.blkBmp]; omega)
  have hused : v1.used = v.used := by
    funext c
    unfold used
    rw [ht.sb]
    exact congrArg (fun m => bitAt m c) hblk
  have hold : ∀ j, v1.Allocated j → j ≠ ino → v.Allocated j := by
    intro j hj hne
    refine ⟨by have := hj.1; rw [ht.sb] at this; exact this, ?_⟩
    have := hj.2
    rw [ht.inUse_eq] at this
    simpa [hne] using this
  refine ⟨⟨?_, ?_, ?_, ?_, ?_⟩, by rw [ht.sb], ht.lt, ht.fresh, ht.inUse_eq, fun j hj => ht.same h hj⟩
  · rw [ht.sb]
    exact ⟨h.layout.blkBmp, h.layout.inoBmp, h.layout.inoTbl, h.layout.table, h.layout.data, h.layout.blocks, h.layout.inodes⟩
  · rw [hused, ht.sb]
    exact h.metadata
  · rw [hused, show v1.sb.InData = v.sb.InData by unfold Sb.InData; rw [ht.sb]]
    refine h.owned.sub (fun _ hu => hu) (fun j t hj h0 => ?_)
    have hne : j ≠ ino := by
      rintro rfl
      exact h0 (ht.ptr_zero _ t)
    have hj' := hold j hj hne
    have hs := ht.same h hj'
    exact ⟨hj', by rw [hs.inode, hs.ptrs]⟩
  · rw [ht.sb]
    exact h.freeBlocks.trans (congrArg (fun m => clearCount m v.sb.blockCount) hblk.symm)
  · have hcount := clearCount_setBit (v.disk v.sb.inoBmp) v.sb.inodeCount ino ht.lt ht.fresh
    have hfree := h.freeInodes
    rw [ht.sb]
    show v.sb.freeInodes - 1 = clearCount (v1.disk v.sb.inoBmp) v.sb.inodeCount
    rw [ht.bmp]
    omega

/-! ## The block of a new directory -/

def Inode.withDots (n : Inode) (blk : Nat) : Inode := (n.setBlock 0 blk).setSize 64

def dots (ino parent : Nat) : List Dirent := [⟨ino, ftDir, [46]⟩, ⟨parent, ftDir, [46, 46]⟩]

structure Dotted (v : Vol) (ino parent : Nat) (w : Vol) : Prop where
  sound : w.Sound
  sb : w.sb = { v.sb with freeBlocks := v.sb.freeBlocks - 1 }
  inUse : w.inUse = v.inUse
  same : ∀ j, v.Allocated j → j ≠ ino → SameFile v w j
  inodes : ∀ j, j < v.sb.inodeCount → j ≠ ino → w.inode j = v.inode j
  mode : (w.inode ino).mode = (v.inode ino).mode
  links : (w.inode ino).links = (v.inode ino).links
  mapped : w.Mapped ino
  size : (w.inode ino).size = 64
  entries : w.entries ino = dots ino parent
  ptrs : ∀ t, t ≠ .direct 0 → ptr w.disk (w.inode ino) t = 0
  owns : ∀ c, w.used c = true → v.used c = true ∨ ptr w.disk (w.inode ino) (.direct 0) = c

theorem Vol.Took.inode_eq (h : v.Sound) (ht : v.Took v1 b) (d : Nat → UInt8) {j : Nat} (hj : j < v.sb.inodeCount) :
    (v1.put b d).inode j = v.inode j := by
  have htab := h.table_block hj
  have hge := h.ge_of_free ht.fresh
  refine inode_congr (by rw [show (v1.put b d).sb = v1.sb from rfl, ht.sb]) ?_
  have hne : v.sb.inoTbl + j / 8 ≠ b := by omega
  exact (update_of_ne hne _ _).trans (ht.disk _ (by omega) (by rw [h.layout.blkBmp]; omega))

/-- **The first block of a new directory.** -/
theorem Vol.Took.dotted {parent : Nat} (h : v.Sound) (hi : v.Allocated ino) (h0 : ∀ d t, ptr d (v.inode ino) t = 0)
    (ht : v.Took v1 b) (hparent : parent < 2 ^ 32) :
    Dotted v ino parent ((v1.put b (dotData ino parent)).putInode ino ((v.inode ino).withDots b)) := by
  obtain ⟨hb2, hb32⟩ := h.took_bounds ht
  have hge := h.ge_of_free ht.fresh
  have hlt := hi.1
  have hcount : v.sb.inodeCount ≤ 4096 := h.layout.inodes
  have hptr : ∀ d t, ptr d ((v.inode ino).withDots b) t = if t = .direct 0 then b else 0 := by
    intro d t
    unfold withDots
    rw [ptr_setSize, ptr_setBlock d _ 0 b (by omega) hb32, h0]
  generalize hv2 : v1.put b (dotData ino parent) = v2
  have hsb2 : v2.sb = { v.sb with freeBlocks := v.sb.freeBlocks - 1 } := by rw [← hv2, ← ht.sb]; rfl
  have hd2 : ∀ c, c ≠ b → v2.disk c = v1.disk c := fun c hc => by rw [← hv2]; exact update_of_ne hc _ _
  have hdb : v2.disk b = dotData ino parent := by rw [← hv2]; exact update_self ..
  have hino2 : ∀ j, j < v.sb.inodeCount → v2.inode j = v.inode j := fun j hj => by
    rw [← hv2]
    exact ht.inode_eq h _ hj
  have hlink : Wf v2 v.Allocated (update v.inode ino ((v.inode ino).withDots b)) := by
    have hself : update v.inode ino (v.inode ino) = v.inode := Function.update_eq_self _ _
    refine Wf.link (n := v.inode ino) (s := .direct 0) (by rw [hself]; exact h) hi ht (by rw [hsb2, ht.sb])
      (fun c hc _ => hd2 c hc) (fun t => ?_)
    rw [hptr, h0]
  have hput : Wf v2 v.Allocated (update v2.inode ino ((v.inode ino).withDots b)) := by
    refine ⟨hlink.layout, hlink.metadata, hlink.owned.mono (fun _ hj => hj) (fun _ hu => hu) (fun j t hj _ => ?_),
      hlink.freeBlocks, hlink.freeInodes⟩
    by_cases hji : j = ino
    · subst hji
      rw [update_self, update_self]
    · rw [update_of_ne hji, update_of_ne hji, hino2 j hj.1]
  have hlt2 : ino < v2.sb.inodeCount := by rw [hsb2]; exact hlt
  have hw := hput.putInode hlt2
  set w := v2.putInode ino ((v.inode ino).withDots b) with hwd
  obtain ⟨htgt, htds⟩ := hput.table_block hlt2
  have hds : v2.sb.dataStart = v.sb.dataStart := by rw [hsb2]
  -- no block of the data area but `b` has changed
  have hdisk : ∀ c, v.sb.dataStart ≤ c → c ≠ b → w.disk c = v.disk c := by
    intro c hc hcb
    rw [show w.disk c = v2.disk c from update_of_ne (by omega) _ _, hd2 c hcb]
    exact ht.disk c (by omega) (by rw [h.layout.blkBmp]; omega)
  have hdiskb : w.disk b = dotData ino parent :=
    (update_of_ne (by omega) _ _).trans hdb
  have hinUse : w.inUse = v.inUse := by
    have h2 : w.disk 2 = v.disk 2 :=
      (update_of_ne (by omega) _ _).trans
        ((hd2 2 (by omega)).trans (ht.disk 2 (by omega) (by rw [h.layout.blkBmp]; omega)))
    funext j
    unfold inUse
    rw [show w.sb.inoBmp = 2 from by
      rw [show w.sb = v2.sb from rfl, hsb2]; exact h.layout.inoBmp,
      h.layout.inoBmp, h2]
  have hmarks : ∀ c, w.used c = (decide (c = b) || v.used c) := by
    intro c
    have h1 : w.disk v1.sb.blkBmp = v1.disk v1.sb.blkBmp := by
      rw [ht.sb, h.layout.blkBmp]
      exact (update_of_ne (by omega) _ _).trans (hd2 1 (by omega))
    rw [← ht.used_eq]
    unfold used
    rw [show w.sb.blkBmp = v1.sb.blkBmp from by
      rw [show w.sb = v2.sb from rfl, hsb2, ht.sb], h1]
  have hinode : w.inode ino = ((v.inode ino).withDots b).trunc := by
    rw [hwd, inode_putInode, if_pos rfl]
  have hsb : w.sb = { v.sb with freeBlocks := v.sb.freeBlocks - 1 } := hsb2
  have hothers : ∀ j, j < v.sb.inodeCount → j ≠ ino → w.inode j = v.inode j :=
    fun j hj hne => by rw [hwd, inode_putInode, if_neg hne, hino2 j hj]
  clear_value w
  have hsize : (w.inode ino).size = 64 := by
    rw [hinode, size_trunc]
    exact size_setSize _ 64 (by decide)
  have hwptr : ∀ d t, ptr d (w.inode ino) t = if t = .direct 0 then b else 0 := fun d t => by rw [hinode, ptr_trunc, hptr]
  have hslot : ptr w.disk (w.inode ino) (slotOf 0) = b := by rw [hwptr]; rfl
  have hbyte : ∀ x < 64, w.byteAt ino x = dotData ino parent x := by
    intro x hx
    unfold byteAt
    rw [show x / 512 = 0 by omega, hslot, hdiskb, show x % 512 = x by omega]
  refine ⟨?_, hsb, hinUse, ?_, hothers, ?_, ?_, ?_, hsize, ?_, ?_, ?_⟩
  · exact hw.congr_allocated (fun j hj => ⟨by have := hj.1; rw [hsb] at this; exact this, by rw [← hinUse]; exact hj.2⟩)
  · intro j hj hne
    have hblk : ∀ t, ptr v.disk (v.inode j) t ≠ 0 → w.disk (ptr v.disk (v.inode j) t) = v.disk (ptr v.disk (v.inode j) t) :=
      fun t hp => hdisk _ (h.owned.inData j t hj hp).1 (h.owned.fresh ht.fresh (by omega) hj t)
    exact ⟨hothers j hj.1 hne, ptr_congr fun hp => hblk .indirect hp, hblk⟩
  · rw [hinode, mode_trunc]
    exact (mode_setSize _ 64).trans (mode_setBlock _ 0 b)
  · rw [hinode, links_trunc]
    exact (links_setSize _ 64).trans (links_setBlock _ 0 b (by omega))
  · intro l hl
    rw [hsize] at hl
    rw [show l = 0 by omega, hslot]
    omega
  · unfold entries dots
    have hino : ino < 2 ^ 32 := by omega
    rw [hsize, show (List.range (64 / 32)) = [0, 1] from rfl, List.map_cons, List.map_singleton,
      direntAt_congr (d := dotData ino parent) (fun x hx => hbyte x (by omega)) (by simp [direntAt_dotData_zero _ _ hino]),
      direntAt_congr (d := dotData ino parent) (fun x hx => hbyte x (by omega)) (by simp [direntAt_dotData_one _ _ hparent]),
      direntAt_dotData_zero _ _ hino, direntAt_dotData_one _ _ hparent]
  · intro t hne
    rw [hwptr, if_neg hne]
  · intro c hc
    rw [hmarks, Bool.or_eq_true, decide_eq_true_eq] at hc
    rcases hc with rfl | hc
    · exact .inr hslot
    · exact .inl hc

theorem Dotted.dirOk {parent : Nat} (h : Dotted v ino parent v1) (hdir : (v.inode ino).isDir = true) : v1.DirOk ino where
  isDir := by
    unfold isDir at hdir ⊢
    rw [h.mode]
    exact hdir
  whole := by rw [h.size]
  mapped := h.mapped
  names := by
    rw [h.entries]
    unfold dots
    simp

theorem Vol.dirOk_of_empty (hdir : (v.inode ino).isDir = true) (h0 : (v.inode ino).size = 0) : v.DirOk ino where
  isDir := hdir
  whole := by rw [h0]
  mapped := fun l hl => by omega
  names := by
    unfold entries
    rw [h0]
    simp

/-! ## `noxfs_creat_at` and `noxfs_mkdir` -/

theorem Dotted.sprung {w : Vol} {parent : Nat} (hs : Sprung v v1 ino) (h : Dotted v1 ino parent w) : Sprung v w ino where
  sound := h.sound
  sb := by rw [h.sb, hs.sb]
  lt := hs.lt
  fresh := hs.fresh
  inUse j := by rw [h.inUse, hs.inUse]
  same j hj := (hs.same j hj).trans (h.same j ((hs.allocated j).2 (.inl hj)) (hs.ne hj))

def enteredAs (r : Vol × Status) (ino : Nat) : Vol × Option Nat := if r.2 = .ok then (r.1, some ino) else (r.1, none)

theorem enteredAs_vol (r : Vol × Status) (ino : Nat) : (enteredAs r ino).1 = r.1 := by
  unfold enteredAs
  split <;> rfl

theorem enteredAs_some {r : Vol × Status} {ino i : Nat} (h : (enteredAs r ino).2 = some i) : r.2 = .ok ∧ i = ino := by
  unfold enteredAs at h
  split at h
  · rename_i hok
    exact ⟨hok, (some.inj h).symm⟩
  · cases h

/-- **What `noxfs_creat_at` does**: nothing without a free inode; else an inode, and its record in the parent. -/
theorem creatAt_cases {e : Heap} (h : v.Sound) (parent : Nat) (nm : Name) :
    (v.sb.freeInodes = 0 ∧ v.creatAt e parent nm = (v, none)) ∨ ∃ v1 ino, v.TookInode v1 ino modeFile ∧
      v.creatAt e parent nm = enteredAs (v1.dirAddEntry e parent nm ino ftFile) ino := by
  unfold creatAt
  cases ha : v.ialloc modeFile with
  | none => exact .inl ⟨h.ialloc_none ha, rfl⟩
  | some r => exact .inr ⟨r.1, r.2, ialloc_took h.layout ha, rfl⟩

/-- **What `noxfs_mkdir` does**: nothing for an empty name, a name that is there or without a free inode; else an inode;
then, if there is a block, `.` and `..`, and the record in the parent. -/
theorem mkdir_cases {e : Heap} {parent : Nat} (h : v.Sound) (hparent : parent < 2 ^ 32) (nm : Name) :
    ((nm = [] ∨ (∃ i, v.dirLookupName (e.sub 0) parent nm = some i) ∨ v.sb.freeInodes = 0) ∧ v.mkdir e parent nm = (v, none)) ∨
    (nm ≠ [] ∧ v.dirLookupName (e.sub 0) parent nm = none ∧ ∃ v1 ino, v.TookInode v1 ino modeDir ∧
      ((v.sb.freeBlocks = 0 ∧ v.mkdir e parent nm = (v1, none)) ∨
      ∃ w, Dotted v1 ino parent w ∧ v.mkdir e parent nm = enteredAs (w.dirAddEntry (e.sub 1) parent nm ino ftDir) ino)) := by
  unfold mkdir
  by_cases hnm : nm = []
  · exact .inl ⟨.inl hnm, if_pos hnm⟩
  rw [if_neg hnm]
  cases hl : v.dirLookupName (e.sub 0) parent nm with
  | some i => exact .inl ⟨.inr (.inl ⟨i, rfl⟩), rfl⟩
  | none =>
    cases ha : v.ialloc modeDir with
    | none => exact .inl ⟨.inr (.inr (h.ialloc_none ha)), rfl⟩
    | some r =>
      obtain ⟨v1, ino⟩ := r
      have ht := ialloc_took h.layout ha
      have hs := ht.sprung h
      refine .inr ⟨hnm, rfl, v1, ino, ht, ?_⟩
      cases hb : v1.balloc with
      | none =>
        have hfree := hs.sound.balloc_none hb
        rw [ht.sb] at hfree
        exact .inl ⟨hfree, by simp only [hb]⟩
      | some r =>
        obtain ⟨v2, blk⟩ := r
        have htook := balloc_took hs.sound.blkBmp_ne hb
        have hlt : ino < v1.sb.inodeCount := by rw [hs.count]; exact hs.lt
        have hcount : ¬ (v2.put blk (dotData ino parent)).sb.inodeCount ≤ ino := by
          rw [show (v2.put blk (dotData ino parent)).sb = v2.sb from rfl, htook.sb]
          exact not_le.2 hlt
        refine .inr ⟨_, htook.dotted hs.sound ((hs.allocated ino).2 (.inr rfl)) (fun d t => ht.ptr_zero d t) hparent, ?_⟩
        simp only [hb, iread, iwrite, if_neg hcount, htook.inode_eq hs.sound _ hlt]
        rfl

end

end Noxis
