import Noxis.Filed
/-!
# Removed — what `noxfs_unlink`, `noxfs_rmdir` and `noxfs_rename` do on disk

`noxfs_unlink` takes a record out of a directory and, when the last link is gone, frees the blocks that the size of the inode
accounts for (`Vol.freeBlocksOf`, a fold of `_bfree` over `freedSlots`) and the inode (`FreedInode`).  On a sound volume the blocks of
an allocated inode are marked and distinct, so the counters follow the bitmaps.
-/
namespace Noxis

open List Bitmap Vol Inode Function Nat

/-! ## `_bfree` -/

/-- The slots whose blocks `noxfs_unlink` frees for a file of `blocks` blocks. -/
def freedSlots (blocks : Nat) : List Slot :=
  (List.range (min blocks 10)).map .direct ++ (List.range (min (blocks - 10) 128)).map .listed ++ [.indirect]

structure Vol.Released (v w : Vol) (bs : List Nat) : Prop where
  sb : w.sb = { v.sb with freeBlocks := w.sb.freeBlocks }
  disk : ∀ c, c ≠ 0 → c ≠ v.sb.blkBmp → w.disk c = v.disk c
  used : ∀ c, w.used c = true ↔ v.used c = true ∧ ¬ (c ≠ 0 ∧ c ∈ bs)
  free : w.sb.freeBlocks = clearCount (w.disk v.sb.blkBmp) v.sb.blockCount

section
variable {v w x : Vol} {b : Nat} {bs cs : List Nat}

theorem Vol.Released.refl (hfree : v.sb.freeBlocks = clearCount (v.disk v.sb.blkBmp) v.sb.blockCount) : v.Released v [] :=
  ⟨rfl, fun _ _ _ => rfl, fun c => by simp, hfree⟩

theorem Vol.Released.trans (h : v.Released w bs) (h' : w.Released x cs) : v.Released x (bs ++ cs) where
  sb := by rw [h'.sb, h.sb]
  disk c h0 h1 := by rw [h'.disk c h0 (by rw [h.sb]; exact h1), h.disk c h0 h1]
  used c := by
    rw [h'.used, h.used, mem_append]
    tauto
  free := by
    have hf := h'.free
    rw [h.sb] at hf
    exact hf

theorem Vol.bfreeNz_released (hl : Layout v.sb) (hfree : v.sb.freeBlocks = clearCount (v.disk v.sb.blkBmp) v.sb.blockCount)
    (hb : b ≠ 0 → b < v.sb.blockCount ∧ v.used b = true) : v.Released (v.bfreeNz b) [b] := by
  unfold bfreeNz
  by_cases h0 : b = 0
  · rw [if_pos h0]
    refine ⟨rfl, fun _ _ _ => rfl, fun c => ?_, hfree⟩
    rw [mem_singleton, h0]
    tauto
  obtain ⟨hlt, hu⟩ := hb h0
  have hblocks := hl.blocks
  have hbmp := hl.blkBmp
  rw [if_neg h0, bfree, if_neg (not_le.2 hlt)]
  have hbits : ((v.bmpFree v.sb.blkBmp b).setFreeBlocks ((v.sb.freeBlocks + 1) % 2 ^ 32)).sbWrite.disk v.sb.blkBmp =
      clearBit (v.disk v.sb.blkBmp) b := by
    have hne : v.sb.blkBmp ≠ 0 := by omega
    simp [sbWrite, setFreeBlocks, bmpFree, put, hne, div_eq_of_lt (by omega : b < 4096), mod_eq_of_lt (by omega : b < 4096)]
  have hcount := clearCount_clearBit (v.disk v.sb.blkBmp) v.sb.blockCount b hlt hu
  have hle := clearCount_le (clearBit (v.disk v.sb.blkBmp) b) v.sb.blockCount
  refine ⟨rfl, fun c hc h1 => ?_, fun c => ?_, ?_⟩
  · have hdiv : v.sb.blkBmp + b / 4096 = v.sb.blkBmp := by omega
    simp [sbWrite, setFreeBlocks, bmpFree, put, hc, h1, hdiv]
  · unfold used
    rw [show ((v.bmpFree v.sb.blkBmp b).setFreeBlocks ((v.sb.freeBlocks + 1) % 2 ^ 32)).sbWrite.sb.blkBmp = v.sb.blkBmp from rfl,
      hbits, bitAt_clearBit, mem_singleton, Bool.and_eq_true, Bool.not_eq_true', decide_eq_false_iff_not]
    refine and_congr_right fun _ => not_congr ⟨fun hc => ⟨hc ▸ h0, hc⟩, fun hc => hc.2⟩
  · rw [hbits, hcount]
    show (v.sb.freeBlocks + 1) % 2 ^ 32 = _
    rw [mod_eq_of_lt (by omega), hfree]

/-- **Distinct marked blocks are freed**, one after the other. -/
theorem Vol.foldl_bfreeNz_released : ∀ (bs : List Nat) (v : Vol), Layout v.sb →
    v.sb.freeBlocks = clearCount (v.disk v.sb.blkBmp) v.sb.blockCount →
    (∀ b ∈ bs, b ≠ 0 → b < v.sb.blockCount ∧ v.used b = true) → (bs.filter (· ≠ 0)).Nodup → v.Released (bs.foldl bfreeNz v) bs
  | [], v, _, hfree, _, _ => Vol.Released.refl hfree
  | b :: bs, v, hl, hfree, hbs, hnd => by
    have h1 := v.bfreeNz_released hl hfree (hbs b mem_cons_self)
    have hrest : ∀ c ∈ bs, c ≠ 0 → c < (v.bfreeNz b).sb.blockCount ∧ (v.bfreeNz b).used c = true := by
      intro c hc h0
      obtain ⟨hlt, hu⟩ := hbs c (mem_cons_of_mem _ hc) h0
      refine ⟨by rw [h1.sb]; exact hlt, (h1.used c).2 ⟨hu, fun hcb => ?_⟩⟩
      -- `c` is another block than the one just freed
      obtain rfl := mem_singleton.1 hcb.2
      rw [filter_cons_of_pos (by simpa using h0), nodup_cons] at hnd
      exact hnd.1 (mem_filter.2 ⟨hc, by simpa using h0⟩)
    have h2 := foldl_bfreeNz_released bs (v.bfreeNz b) (by rw [h1.sb]; exact ⟨hl.1, hl.2, hl.3, hl.4, hl.5, hl.6, hl.7⟩)
      (by rw [h1.free, h1.sb]) hrest (hnd.sublist ((sublist_cons_self b bs).filter _))
    exact h1.trans h2

theorem Vol.bfreeNz_disk (v : Vol) (b : Nat) (hl : Layout v.sb) {c : Nat} (hc : 2 < c) : (v.bfreeNz b).disk c = v.disk c := by
  have hbmp := hl.blkBmp
  have hblocks := hl.blocks
  unfold bfreeNz bfree
  split
  · rfl
  split
  · rfl
  · have h0 : c ≠ 0 := by omega
    have h1 : c ≠ v.sb.blkBmp + b / 4096 := by omega
    simp [sbWrite, setFreeBlocks, bmpFree, put, h0, h1]

theorem Vol.bfreeNz_layout (v : Vol) (b : Nat) (hl : Layout v.sb) : Layout (v.bfreeNz b).sb := by
  unfold bfreeNz bfree
  split
  · exact hl
  · split
    · exact hl
    · exact ⟨hl.1, hl.2, hl.3, hl.4, hl.5, hl.6, hl.7⟩

theorem Vol.foldl_bfreeNz_disk : ∀ (bs : List Nat) (v : Vol), Layout v.sb → ∀ c, 2 < c → (bs.foldl bfreeNz v).disk c = v.disk c
  | [], _, _, _, _ => rfl
  | b :: bs, v, hl, c, hc => by
    rw [foldl_cons, foldl_bfreeNz_disk bs _ (v.bfreeNz_layout b hl) c hc, v.bfreeNz_disk b hl hc]

theorem Vol.freeDirect_eq (n : Inode) (v : Vol) : ∀ k, freeDirect n k v = ((range k).map n.block).foldl bfreeNz v
  | 0 => rfl
  | k + 1 => by
    rw [freeDirect, freeDirect_eq n v k, range_succ, map_append, foldl_append]
    rfl

theorem Vol.freeListed_eq (ind : Nat) (v : Vol) (hl : Layout v.sb) (hind : 2 < ind) : ∀ k,
    freeListed ind k v = ((range k).map fun l => leRead (v.disk ind) (4 * l) 4).foldl bfreeNz v
  | 0 => rfl
  | k + 1 => by
    rw [freeListed, freeListed_eq ind v hl hind k, foldl_bfreeNz_disk _ v hl ind hind, range_succ, map_append, foldl_append]
    rfl

theorem Vol.foldl_bfreeNz_layout : ∀ (bs : List Nat) (v : Vol), Layout v.sb → Layout (bs.foldl bfreeNz v).sb
  | [], _, hl => hl
  | b :: bs, v, hl => foldl_bfreeNz_layout bs _ (v.bfreeNz_layout b hl)

theorem Vol.foldl_bfreeNz_zeros : ∀ (bs : List Nat) (v : Vol), (∀ b ∈ bs, b = 0) → bs.foldl bfreeNz v = v
  | [], _, _ => rfl
  | b :: bs, v, h => by
    rw [foldl_cons, show v.bfreeNz b = v from if_pos (h b mem_cons_self)]
    exact foldl_bfreeNz_zeros bs v (fun c hc => h c (mem_cons_of_mem _ hc))

/-- **The blocks freed with an inode** are those in its `freedSlots`. -/
theorem Vol.freeBlocksOf_eq (v : Vol) (n : Inode) (hl : Layout v.sb) (hind : n.indirect ≠ 0 → 2 < n.indirect) :
    v.freeBlocksOf n = ((freedSlots (blocksFor n.size)).map (ptr v.disk n)).foldl bfreeNz v := by
  set r := range (min (blocksFor n.size) 10)
  have hdirect : r.map n.block =
      (r.map Slot.direct).map (ptr v.disk n) := by
    rw [map_map]
    refine map_congr_left (fun k hk => ?_)
    exact (if_pos (by have := mem_range.1 hk; omega)).symm
  unfold freeBlocksOf freedSlots
  rw [freeDirect_eq, hdirect]
  simp only [map_append, foldl_append]
  generalize (r.map Slot.direct).map (ptr v.disk n) = ds
  have hl1 := foldl_bfreeNz_layout ds v hl
  have hdisk := foldl_bfreeNz_disk ds v hl
  generalize ds.foldl bfreeNz v = v1 at *
  by_cases h0 : n.indirect = 0
  · rw [if_pos h0, foldl_bfreeNz_zeros _ v1 (fun b hb => ?_)]
    · exact (if_pos h0).symm
    · obtain ⟨t, ht, rfl⟩ := mem_map.1 hb
      obtain ⟨k, -, rfl⟩ := mem_map.1 ht
      exact if_neg (fun hc => hc.2 h0)
  · rw [if_neg h0, freeListed_eq n.indirect v1 hl1 (hind h0), hdisk _ (hind h0)]
    have hlisted : ((range (min (blocksFor n.size - 10) 128)).map fun l => leRead (v.disk n.indirect) (4 * l) 4) =
        ((range (min (blocksFor n.size - 10) 128)).map Slot.listed).map (ptr v.disk n) := by
      rw [map_map]
      refine map_congr_left (fun k hk => ?_)
      exact (if_pos ⟨by have := mem_range.1 hk; omega, h0⟩).symm
    rw [hlisted]
    exact (if_neg h0).symm

theorem freedSlots_nodup (k : Nat) : (freedSlots k).Nodup := by
  unfold freedSlots
  refine List.Nodup.append (List.Nodup.append ?_ ?_ ?_) (nodup_singleton _) ?_
  · exact nodup_range.map (fun a b h => Slot.direct.inj h)
  · exact nodup_range.map (fun a b h => Slot.listed.inj h)
  · intro t h1 h2
    obtain ⟨a, -, rfl⟩ := mem_map.1 h1
    obtain ⟨b, -, hb⟩ := mem_map.1 h2
    cases hb
  · intro t h1 h2
    obtain rfl := mem_singleton.1 h2
    rcases mem_append.1 h1 with h | h <;> obtain ⟨a, -, ha⟩ := mem_map.1 h <;> cases ha

end

/-! ## An inode and its blocks -/

/-- Inode `ino` has been freed, and the blocks of its size with it. -/
structure FreedInode (v w : Vol) (ino : Nat) : Prop where
  sound : w.Sound
  sb : w.sb = { v.sb with freeBlocks := w.sb.freeBlocks, freeInodes := w.sb.freeInodes }
  disk : ∀ c, 2 < c → w.disk c = v.disk c
  inUse : ∀ j, w.inUse j = (v.inUse j && !decide (j = ino))
  used : ∀ c, w.used c = true ↔ v.used c = true ∧
    ¬ (c ≠ 0 ∧ ∃ t ∈ freedSlots (blocksFor (v.inode ino).size), ptr v.disk (v.inode ino) t = c)

section
variable {v w : Vol} {ino : Nat} {n : Inode}

theorem Vol.ifree_eq (hl : Layout v.sb) (hi : ino < v.sb.inodeCount) :
    (v.ifree ino).sb = { v.sb with freeInodes := (v.sb.freeInodes + 1) % 2 ^ 32 } ∧
    (v.ifree ino).disk v.sb.inoBmp = clearBit (v.disk v.sb.inoBmp) ino ∧
    ∀ c, c ≠ 0 → c ≠ v.sb.inoBmp → (v.ifree ino).disk c = v.disk c := by
  have hbmp := hl.inoBmp
  have hinodes := hl.inodes
  have hdiv : ino / 4096 = 0 := by omega
  have hmod : ino % 4096 = ino := by omega
  have hne : v.sb.inoBmp ≠ 0 := by omega
  unfold ifree
  rw [if_neg (not_le.2 hi)]
  refine ⟨rfl, ?_, fun c h0 h1 => ?_⟩
  · simp [sbWrite, setFreeInodes, bmpFree, put, hne, hdiv, hmod]
  · simp [sbWrite, setFreeInodes, bmpFree, put, h0, h1, hdiv]

theorem Vol.Sound.released (h : v.Sound) (hi : v.Allocated ino) (hptr : ptr v.disk n = ptr v.disk (v.inode ino)) :
    v.Released (v.freeBlocksOf n) ((freedSlots (blocksFor n.size)).map (ptr v.disk (v.inode ino))) := by
  have hind : n.indirect ≠ 0 → 2 < n.indirect := by
    have heq : n.indirect = ptr v.disk (v.inode ino) .indirect := congrFun hptr .indirect
    intro h0
    rw [heq] at h0 ⊢
    exact h.ptr_gt hi h0
  rw [v.freeBlocksOf_eq n h.layout hind, hptr]
  refine foldl_bfreeNz_released _ v h.layout h.freeBlocks (fun b hb h0 => ?_) ?_
  · obtain ⟨t, -, rfl⟩ := mem_map.1 hb
    exact ⟨(h.owned.inData ino t hi h0).2, h.owned.marked ino t hi h0⟩
  · rw [filter_map]
    refine List.Nodup.map_on (fun s hs t _ heq => ?_) ((freedSlots_nodup _).filter _)
    have h0 : ptr v.disk (v.inode ino) s ≠ 0 := by simpa using (mem_filter.1 hs).2
    exact (h.owned.once ino s ino t hi hi h0 heq).2

/-- **An inode is freed** together with its blocks. -/
theorem Vol.Sound.freed (h : v.Sound) (hi : v.Allocated ino) (hsize : n.size = (v.inode ino).size)
    (hptr : ptr v.disk n = ptr v.disk (v.inode ino)) : FreedInode v ((v.freeBlocksOf n).ifree ino) ino := by
  have hr := h.released hi hptr
  rw [hsize] at hr
  generalize v.freeBlocksOf n = v1 at hr
  have hl1 : Layout v1.sb := by
    rw [hr.sb]
    exact ⟨h.layout.1, h.layout.2, h.layout.3, h.layout.4, h.layout.5, h.layout.6, h.layout.7⟩
  obtain ⟨hsb, hbits, hdisk⟩ := v1.ifree_eq hl1 (by rw [hr.sb]; exact hi.1)
  have h1 := h.layout.blkBmp
  have h2 := h.layout.inoBmp
  have hsb1 : v1.sb.inoBmp = 2 := hl1.inoBmp
  have hbmp : (v1.ifree ino).disk v.sb.blkBmp = v1.disk v.sb.blkBmp := hdisk _ (by omega) (by omega)
  have hold : v1.disk 2 = v.disk 2 := hr.disk 2 (by omega) (by omega)
  have hsbv : (v1.ifree ino).sb = { v.sb with freeBlocks := (v1.ifree ino).sb.freeBlocks,
                                              freeInodes := (v1.ifree ino).sb.freeInodes } := by rw [hsb, hr.sb]
  have hfar : ∀ c, 2 < c → (v1.ifree ino).disk c = v.disk c := fun c hc => by
    rw [hdisk c (by omega) (by omega), hr.disk c (by omega) (by omega)]
  have hinUse : ∀ j, (v1.ifree ino).inUse j = (v.inUse j && !decide (j = ino)) := by
    intro j
    unfold inUse
    rw [hsbv, h2]
    rw [hsb1] at hbits
    rw [hbits, bitAt_clearBit, hold]
  have hused : ∀ c, (v1.ifree ino).used c = v1.used c := by
    intro c
    unfold used
    rw [hsbv, show v1.sb.blkBmp = v.sb.blkBmp by rw [hr.sb]]
    exact congrArg (fun m => bitAt m c) hbmp
  have hin : ∀ j, (v1.ifree ino).inode j = v.inode j := fun j =>
    inode_congr (by rw [hsbv]) (hfar _ (by rw [h.layout.inoTbl]; omega))
  have hA : ∀ j, (v1.ifree ino).Allocated j → v.Allocated j ∧ j ≠ ino := by
    intro j hj
    have hlt := hj.1
    have hbit := hj.2
    rw [hsbv] at hlt
    rw [hinUse, Bool.and_eq_true, Bool.not_eq_true', decide_eq_false_iff_not] at hbit
    exact ⟨⟨hlt, hbit.1⟩, hbit.2⟩
  have hptrs : ∀ j t, v.Allocated j → ptr (v1.ifree ino).disk ((v1.ifree ino).inode j) t = ptr v.disk (v.inode j) t := by
    intro j t hj
    rw [hin]
    exact congrFun (ptr_congr fun h0 => hfar _ (h.ptr_gt (s := .indirect) hj h0)) t
  refine ⟨⟨by rw [hsb]; exact ⟨hl1.1, hl1.2, hl1.3, hl1.4, hl1.5, hl1.6, hl1.7⟩, fun b hb => ?_, ?_, ?_, ?_⟩, hsbv, hfar, hinUse, fun c => ?_⟩
  · rw [hsbv] at hb
    rw [hused, hr.used]
    refine ⟨h.metadata b hb, fun hc => ?_⟩
    obtain ⟨t, -, rfl⟩ := mem_map.1 hc.2
    have := (h.owned.inData ino t hi hc.1).1
    have hb' : ptr v.disk (v.inode ino) t < v.sb.dataStart := hb
    omega
  · rw [show (v1.ifree ino).sb.InData = v.sb.InData by unfold Sb.InData; rw [hsbv]]
    refine (h.owned.release hi hA (fun c hc => ?_)).mono (fun _ hj => hj) (fun _ hu => hu) (fun j t hj _ => hptrs j t (hA j hj).1)
    rw [hused, hr.used]
    by_cases hmem : c ≠ 0 ∧ c ∈ (freedSlots (blocksFor (v.inode ino).size)).map (ptr v.disk (v.inode ino))
    · obtain ⟨t, -, ht⟩ := mem_map.1 hmem.2
      exact .inr ⟨t, ht⟩
    · exact .inl ⟨hc, hmem⟩
  · rw [hsbv]
    show (v1.ifree ino).sb.freeBlocks = clearCount ((v1.ifree ino).disk v.sb.blkBmp) v.sb.blockCount
    rw [hbmp, hsb]
    exact hr.free
  · have hcount := clearCount_clearBit (v.disk 2) v.sb.inodeCount ino hi.1 (by rw [← h2]; exact hi.2)
    have hfree := h.freeInodes
    have hle := clearCount_le (v.disk 2) v.sb.inodeCount
    have hinodes := h.layout.inodes
    rw [hsb1] at hbits
    rw [hsb, hr.sb]
    show (v.sb.freeInodes + 1) % 2 ^ 32 = clearCount ((v1.ifree ino).disk v.sb.inoBmp) v.sb.inodeCount
    rw [h2] at hfree ⊢
    rw [hbits, hold, hcount, mod_eq_of_lt (by omega), hfree]
  · rw [hused, hr.used]
    simp only [mem_map]

end

/-! ## A link less -/

namespace Inode

theorem size_setLinks (n : Inode) (l : Nat) : (n.setLinks l).size = n.size := leRead_leWrite_of_disjoint (by omega)
theorem mode_setLinks (n : Inode) (l : Nat) : (n.setLinks l).mode = n.mode := leRead_leWrite_of_disjoint (by omega)

theorem links_lt (n : Inode) : n.links < 2 ^ 16 := leRead_lt _ _ _

theorem links_setLinks (n : Inode) (l : Nat) : (n.setLinks l).links = l % 2 ^ 16 := leRead_leWrite _ _ _ _

theorem ptr_setLinks (d : Nat → Nat → UInt8) (n : Inode) (l : Nat) : ptr d (n.setLinks l) = ptr d n :=
  ptr_congr_inode d (fun k hk => leRead_leWrite_of_disjoint (by omega)) (leRead_leWrite_of_disjoint (by omega))

end Inode

structure Kept (v w : Vol) : Prop where
  size : ∀ j, v.Allocated j → (w.inode j).size = (v.inode j).size
  mode : ∀ j, v.Allocated j → (w.inode j).mode = (v.inode j).mode
  ptrs : ∀ j, v.Allocated j → ptr w.disk (w.inode j) = ptr v.disk (v.inode j)
  data : ∀ c, v.sb.dataStart ≤ c → w.disk c = v.disk c

section
variable {v w : Vol} {ino i : Nat}

theorem Kept.isDir (h : Kept v w) (hi : v.Allocated i) : (w.inode i).isDir = (v.inode i).isDir := by
  unfold Inode.isDir
  rw [h.mode i hi]

theorem Kept.mapped (h : Kept v w) (hi : v.Allocated i) (hm : v.Mapped i) : w.Mapped i := by
  intro l hl
  rw [h.size i hi] at hl
  rw [h.ptrs i hi]
  exact hm l hl

theorem Kept.byteAt (h : Kept v w) (hs : v.Sound) (hi : v.Allocated i) (hm : v.Mapped i) {x : Nat} (hx : x < (v.inode i).size) :
    w.byteAt i x = v.byteAt i x := by
  have h0 := hm (x / 512) (by omega)
  unfold Vol.byteAt
  rw [h.ptrs i hi, h.data _ (hs.owned.inData i _ hi h0).1]

theorem Kept.entries (h : Kept v w) (hs : v.Sound) (hi : v.Allocated i) (hd : v.DirOk i) : w.entries i = v.entries i := by
  unfold Vol.entries
  rw [h.size i hi]
  exact map_congr_left fun k hk => hd.direntAt_eq (fun x hx => h.byteAt hs hi hd.mapped hx) (mem_range.1 hk)

theorem Kept.dirOk (h : Kept v w) (hs : v.Sound) (hi : v.Allocated i) (hd : v.DirOk i) : w.DirOk i where
  isDir := by rw [h.isDir hi]; exact hd.isDir
  whole := by rw [h.size i hi]; exact hd.whole
  mapped := h.mapped hi hd.mapped
  names := by rw [h.entries hs hi hd]; exact hd.names

theorem FreedInode.inode (h : FreedInode v w ino) (hs : v.Sound) (j : Nat) : w.inode j = v.inode j :=
  inode_congr (by rw [h.sb]) (h.disk _ (by rw [hs.layout.inoTbl]; omega))

theorem FreedInode.same (h : FreedInode v w ino) (hs : v.Sound) {j : Nat} (hj : v.Allocated j) : SameFile v w j :=
  ⟨h.inode hs j, ptr_congr fun h0 => h.disk _ (hs.ptr_gt (s := .indirect) hj h0), fun _ h0 => h.disk _ (hs.ptr_gt hj h0)⟩

theorem FreedInode.kept (h : FreedInode v w ino) (hs : v.Sound) : Kept v w where
  size j _ := by rw [h.inode hs]
  mode j _ := by rw [h.inode hs]
  ptrs j hj := by rw [h.inode hs, (h.same hs hj).ptrs]
  data c hc := h.disk c (by have := hs.layout.table; omega)

theorem FreedInode.allocated (h : FreedInode v w ino) (j : Nat) : w.Allocated j ↔ v.Allocated j ∧ j ≠ ino := by
  unfold Vol.Allocated
  rw [h.sb, h.inUse]
  simp [and_assoc]

structure Relinked (v w : Vol) (ino : Nat) : Prop where
  sound : w.Sound
  sb : w.sb = v.sb
  inUse : w.inUse = v.inUse
  used : w.used = v.used
  kept : Kept v w
  others : ∀ j, j ≠ ino → w.inode j = v.inode j

theorem Relinked.allocated (h : Relinked v w ino) (j : Nat) : w.Allocated j ↔ v.Allocated j := by
  unfold Vol.Allocated
  rw [h.sb, h.inUse]

theorem Vol.Sound.relinked (h : v.Sound) (hi : v.Allocated ino) (l : Nat) :
    Relinked v (v.putInode ino ((v.inode ino).setLinks l)) ino := by
  set r := (v.inode ino).setLinks l
  have hself : ∀ j, ptr v.disk (update v.inode ino r j) = ptr v.disk (v.inode j) := by
    intro j
    by_cases hj : j = ino
    · rw [hj, update_self, ptr_setLinks]
    · rw [update_of_ne hj]
  have hw : Wf v v.Allocated (update v.inode ino r) :=
    ⟨h.layout, h.metadata, h.owned.mono (fun _ hj => hj) (fun _ hu => hu) (fun j t _ _ => by rw [hself]), h.freeBlocks, h.freeInodes⟩
  obtain ⟨htab, hds⟩ := h.table_block hi.1
  set w := v.putInode ino r
  have hdisk : ∀ c, c ≠ v.sb.inoTbl + ino / 8 → w.disk c = v.disk c :=
    fun c hc => update_of_ne hc _ _
  have hin := inode_putInode v ino r
  have hinUse : w.inUse = v.inUse := by
    funext j
    exact congrArg (fun m => bitAt m j) (hdisk v.sb.inoBmp (by rw [h.layout.inoBmp]; omega))
  refine ⟨(hw.putInode hi.1).congr_allocated (fun j hj => ⟨hj.1, hinUse ▸ hj.2⟩), rfl, hinUse, ?_,
    ⟨fun j _ => ?_, fun j _ => ?_, fun j hj => ?_, fun c hc => hdisk c (by omega)⟩, fun j hj => by rw [hin, if_neg hj]⟩
  · funext c
    exact congrArg (fun m => bitAt m c) (hdisk v.sb.blkBmp (by rw [h.layout.blkBmp]; omega))
  · rw [hin]
    split
    · rename_i hj
      rw [hj, size_trunc, size_setLinks]
    · rfl
  · rw [hin]
    split
    · rename_i hj
      rw [hj, mode_trunc, mode_setLinks]
    · rfl
  · have hT : ptr v.disk (w.inode j) = ptr v.disk (v.inode j) := by
      rw [hin]
      split
      · rename_i hj
        rw [hj, ptr_trunc, ptr_setLinks]
      · rfl
    rw [← hT]
    apply ptr_congr
    intro h0
    have hp : ptr v.disk (v.inode j) .indirect ≠ 0 := by rw [← hT]; exact h0
    have hge := (h.owned.inData j .indirect hj hp).1
    rw [← hT] at hge
    have hge' : v.sb.dataStart ≤ (w.inode j).indirect := hge
    exact hdisk _ (by omega)

end

/-! ## `noxfs_unlink` and `noxfs_rmdir` -/

section
variable {v w : Vol} {e : Heap} {parent ino : Nat} {nm : Name} {r : Vol × Status}

theorem RemoveSpec.allocated (h : RemoveSpec v parent nm r) (j : Nat) : r.1.Allocated j ↔ v.Allocated j := by
  obtain ⟨data, hst⟩ := h.store
  exact hst.allocated j

theorem RemoveSpec.isDirAt (h : RemoveSpec v parent nm r) (j : Nat) : r.1.IsDirAt j ↔ v.IsDirAt j := by
  obtain ⟨data, hst⟩ := h.store
  unfold Vol.IsDirAt
  rw [hst.allocated j]
  exact and_congr_right fun hj => by rw [hst.isDir hj.1]

variable {j src dst i old : Nat}

section
variable (h : RemoveSpec v parent nm r)
include h

theorem RemoveSpec.same (hj : v.Allocated j) (hne : j ≠ parent) : SameFile v r.1 j := by
  obtain ⟨data, hst⟩ := h.store
  exact hst.others j hj hne

theorem RemoveSpec.sound : r.1.Sound := by
  obtain ⟨data, hst⟩ := h.store
  exact hst.sound

theorem RemoveSpec.rootIno : r.1.sb.rootIno = v.sb.rootIno := by
  obtain ⟨data, hst⟩ := h.store
  exact hst.rootIno

theorem RemoveSpec.links (hj : v.Allocated j) : (r.1.inode j).links = (v.inode j).links := by
  obtain ⟨data, hst⟩ := h.store
  by_cases hjp : j = parent
  · rw [hjp]
    exact hst.links
  · rw [hst.inodes j hj.1 hjp]

def Vol.entriesBut (v : Vol) (parent : Nat) (nm : Name) (i : Nat) : List Dirent :=
  if i = parent then (v.entries i).eraseP (Dirent.hit nm) else v.entries i

theorem RemoveSpec.entries (hj : v.Allocated j) (hd : v.DirOk j) : r.1.entries j = v.entriesBut parent nm j := by
  unfold entriesBut
  split
  · rename_i hjp
    rw [hjp, h.erased]
  · rename_i hjp
    exact (h.same hj hjp).entries_eq hd

end

theorem Vol.Filed.removed (h : v.Filed) (hr : RemoveSpec v parent nm r) : r.1.Filed where
  sound := hr.sound
  root := by
    rw [hr.rootIno]
    exact (hr.isDirAt _).2 h.root
  zero := (hr.allocated 0).2 h.zero
  dirs j hj := by
    have hj' := (hr.isDirAt j).1 hj
    by_cases hjp : j = parent
    · subst hjp
      exact hr.dirOk
    · exact (hr.same hj'.1 hjp).dirOk (h.dirs j hj')
  live j hj x hx h0 := by
    have hj' := (hr.isDirAt j).1 hj
    refine (hr.allocated _).2 (h.live j hj' x ?_ h0)
    rw [hr.entries hj'.1 (h.dirs j hj')] at hx
    unfold entriesBut at hx
    split at hx
    · exact mem_of_mem_eraseP hx
    · exact hx

/-- The record `nm` of `parent`, which names `ino`, is out; `w` is the volume without it. -/
structure Unlinked (v : Vol) (parent : Nat) (nm : Name) (ino : Nat) (w : Vol) : Prop where
  named : v.named parent nm = some ino
  ne_root : ino ≠ v.sb.rootIno
  empty : (v.inode ino).isDir = true → (v.inode ino).size ≤ 64
  removed : RemoveSpec v parent nm (w, .ok)

/-- **What `noxfs_unlink` does**: it refuses a name that is not there, the root and a directory of more than two records, and
leaves the volume alone; else it takes the record out and frees the inode, or takes one link from it. -/
theorem unlink_cases (h : v.Filed) (he : e.Ok) (hp : v.IsDirAt parent) (nm : Name) :
    let g := v.unlink e parent nm
    ((∃ st, st ≠ .ok ∧ v.unlink e parent nm = (v, st, none)) ∧ ∀ ino, v.named parent nm = some ino → ino =
      v.sb.rootIno ∨ (v.inode ino).isDir = true ∧ 64 < (v.inode ino).size) ∨ ∃ ino w, Unlinked v parent nm ino w ∧
    ((v.inode ino).links ≤ 1 ∧ g.2 = (.ok, some ino) ∧ FreedInode w g.1 ino ∨ 1 < (v.inode ino).links ∧ g.2 =
      (.ok, none) ∧ Relinked w g.1 ino) := by
  unfold unlink
  rw [h.dirLookupName (he.sub 0) hp]
  cases hn : v.named parent nm with
  | none => exact .inl ⟨⟨_, by decide, rfl⟩, fun ino hx => by cases hx⟩
  | some ino =>
    have hi := (h.named_allocated hp hn).1
    dsimp only
    by_cases hroot : ino = v.sb.rootIno
    · rw [if_pos hroot]
      refine .inl ⟨⟨_, by decide, rfl⟩, fun j hj => .inl ?_⟩
      rw [← Option.some.inj hj, hroot]
    rw [if_neg hroot, iread_of_lt hi.1]
    dsimp only
    by_cases hfull : (v.inode ino).isDir = true ∧ 64 < (v.inode ino).size
    · rw [if_pos hfull]
      refine .inl ⟨⟨_, by decide, rfl⟩, fun j hj => .inr ?_⟩
      rw [← Option.some.inj hj]
      exact hfull
    rw [if_neg hfull]
    have hrem := dirRemoveEntry_spec (he.sub 1) h.sound hp.1 (h.dirs parent hp) nm hn
    generalize v.dirRemoveEntry (e.sub 1) parent nm = r at hrem
    obtain ⟨w, st⟩ := r
    obtain rfl : st = .ok := hrem.ok
    have hiw : w.Allocated ino := (hrem.allocated ino).2 hi
    have hlinks : (w.inode ino).links = (v.inode ino).links := hrem.links hi
    simp only [ne_eq, not_true_eq_false, if_false, iread_of_lt hiw.1]
    refine .inr ⟨ino, w, ⟨hn, hroot, fun hd => not_lt.1 fun hlt => hfull ⟨hd, hlt⟩, hrem⟩, ?_⟩
    by_cases hl : 1 < (v.inode ino).links
    · refine .inr ⟨hl, ?_⟩
      set u := (w.inode ino).links - 1
      have hnz : (if 0 < (w.inode ino).links then (w.inode ino).setLinks u else w.inode ino) =
          (w.inode ino).setLinks u := if_pos (by omega)
      set c := (w.inode ino).setLinks u
      have hset : c.links ≠ 0 := by
        have hlt := (w.inode ino).links_lt
        rw [links_setLinks, mod_eq_of_lt (by omega)]
        omega
      rw [hnz, if_neg hset, show w.iwrite ino c = (w.putInode ino c, .ok) from if_neg (not_le.2 hiw.1)]
      exact ⟨rfl, hrem.sound.relinked hiw _⟩
    · refine .inl ⟨not_lt.1 hl, ?_⟩
      have hcopy : ∀ n, n = (if 0 < (w.inode ino).links then (w.inode ino).setLinks ((w.inode ino).links - 1) else w.inode ino) →
          n.links = 0 ∧ n.size = (w.inode ino).size ∧ ptr w.disk n = ptr w.disk (w.inode ino) := by
        intro n hn'
        subst hn'
        split
        · refine ⟨?_, size_setLinks _ _, ptr_setLinks _ _ _⟩
          rw [links_setLinks, show (w.inode ino).links - 1 = 0 by omega, zero_mod]
        · exact ⟨by omega, rfl, rfl⟩
      generalize hn' : (if 0 < (w.inode ino).links then (w.inode ino).setLinks ((w.inode ino).links - 1) else w.inode ino) = n
      obtain ⟨hzero, hsize, hptr⟩ := hcopy n hn'.symm
      rw [if_pos hzero]
      exact ⟨rfl, hrem.sound.freed hiw hsize hptr⟩

theorem rmdir_cases (h : v.Filed) (he : e.Ok) (hp : v.IsDirAt parent) (nm : Name) :
    (∃ st, st ≠ .ok ∧ v.rmdir e parent nm = (v, st, none)) ∨
    v.rmdir e parent nm = v.unlink (e.sub 1) parent nm ∧ ∀ ino, v.named parent nm = some ino → (v.inode ino).isDir = true := by
  unfold rmdir
  rw [h.dirLookupName (he.sub 0) hp]
  cases hn : v.named parent nm with
  | none => exact .inl ⟨_, by decide, rfl⟩
  | some ino =>
    have hi := (h.named_allocated hp hn).1
    dsimp only
    rw [iread_of_lt hi.1]
    dsimp only
    split
    · exact .inl ⟨_, by decide, rfl⟩
    rename_i hdir
    split
    · exact .inl ⟨_, by decide, rfl⟩
    · refine .inr ⟨rfl, fun j hj => ?_⟩
      rw [← Option.some.inj hj]
      simpa using hdir

/-! ## The volume stays filed -/

/-- **A freed inode** that no record of another directory names. -/
theorem Vol.Filed.freed (h : v.Filed) (hf : FreedInode v w ino) (hroot : ino ≠ v.sb.rootIno) (h0 : ino ≠ 0)
    (hsole : ∀ i, v.IsDirAt i → i ≠ ino → ∀ x ∈ v.entries i, x.inode ≠ ino) : w.Filed := by
  have hk := hf.kept h.sound
  have hdir : ∀ i, w.IsDirAt i → v.IsDirAt i ∧ i ≠ ino := by
    intro i hi
    obtain ⟨hi', hne⟩ := (hf.allocated i).1 hi.1
    exact ⟨⟨hi', by rw [← hk.isDir hi']; exact hi.2⟩, hne⟩
  refine ⟨hf.sound, ?_, (hf.allocated 0).2 ⟨h.zero, h0.symm⟩, fun i hi => ?_, fun i hi x hx hx0 => ?_⟩
  · rw [hf.sb]
    exact ⟨(hf.allocated _).2 ⟨h.root.1, hroot.symm⟩, by rw [hk.isDir h.root.1]; exact h.root.2⟩
  · obtain ⟨hi', -⟩ := hdir i hi
    exact hk.dirOk h.sound hi'.1 (h.dirs i hi')
  · obtain ⟨hi', hne⟩ := hdir i hi
    rw [hk.entries h.sound hi'.1 (h.dirs i hi')] at hx
    exact (hf.allocated _).2 ⟨h.live i hi' x hx hx0, hsole i hi' hne x hx⟩

theorem Vol.Filed.relinked (h : v.Filed) (hr : Relinked v w ino) : w.Filed := by
  have hdir : ∀ i, w.IsDirAt i ↔ v.IsDirAt i := by
    intro i
    unfold Vol.IsDirAt
    rw [hr.allocated]
    exact and_congr_right fun hi => by rw [hr.kept.isDir hi]
  refine ⟨hr.sound, by rw [hr.sb]; exact (hdir _).2 h.root, (hr.allocated 0).2 h.zero, fun i hi => ?_, fun i hi x hx hx0 => ?_⟩
  · have hi' := (hdir i).1 hi
    exact hr.kept.dirOk h.sound hi'.1 (h.dirs i hi')
  · have hi' := (hdir i).1 hi
    rw [hr.kept.entries h.sound hi'.1 (h.dirs i hi')] at hx
    exact (hr.allocated _).2 (h.live i hi' x hx hx0)

/-- `noxfs_unlink` of this name frees inode `ino`. -/
structure Vol.Frees (v : Vol) (parent : Nat) (nm : Name) (ino : Nat) : Prop where
  named : v.named parent nm = some ino
  ne_root : ino ≠ v.sb.rootIno
  empty : (v.inode ino).isDir = true → (v.inode ino).size ≤ 64
  links : (v.inode ino).links ≤ 1

/-- No other directory than `ino` has another record of `ino` than the one of this name. -/
def Vol.Sole (v : Vol) (parent : Nat) (nm : Name) (ino : Nat) : Prop :=
  ∀ i, v.IsDirAt i → i ≠ ino → ∀ x ∈ v.entriesBut parent nm i, x.inode ≠ ino

/-- **`noxfs_unlink`**, if an inode that it frees has no other record. -/
theorem Vol.Filed.unlink (h : v.Filed) (he : e.Ok) (hp : v.IsDirAt parent) (nm : Name)
    (hsole : ∀ ino, v.Frees parent nm ino → v.Sole parent nm ino) : (v.unlink e parent nm).1.Filed := by
  rcases unlink_cases h he hp nm with ⟨⟨st, -, hr⟩, -⟩ | ⟨ino, w, hu, ⟨hl, -, hf⟩ | ⟨-, -, hf⟩⟩
  · rw [hr]
    exact h
  · have hw := h.removed hu.removed
    refine hw.freed hf (by rw [show w.sb.rootIno = v.sb.rootIno from hu.removed.rootIno]; exact hu.ne_root)
      (h.named_allocated hp hu.named).2 (fun i hi hne x hx => ?_)
    have hi' : v.IsDirAt i := (hu.removed.isDirAt i).1 hi
    rw [show w.entries i = v.entriesBut parent nm i from hu.removed.entries hi'.1 (h.dirs i hi')] at hx
    exact hsole ino ⟨hu.named, hu.ne_root, hu.empty, hl⟩ i hi' hne x hx
  · exact (h.removed hu.removed).relinked hf

theorem Vol.Filed.rmdir (h : v.Filed) (he : e.Ok) (hp : v.IsDirAt parent) (nm : Name)
    (hsole : ∀ ino, v.Frees parent nm ino → (v.inode ino).isDir = true → v.Sole parent nm ino) : (v.rmdir e parent nm).1.Filed := by
  rcases rmdir_cases h he hp nm with ⟨st, -, hr⟩ | ⟨hr, hdir⟩
  · rw [hr]
    exact h
  · rw [hr]
    exact h.unlink (he.sub 1) hp nm (fun ino hf => hsole ino hf (hdir ino hf.named))

theorem Vol.Filed.dirRemoveEntry (h : v.Filed) (he : e.Ok) (hp : v.IsDirAt parent) (nm : Name) :
    v.named parent nm = none ∧ v.dirRemoveEntry e parent nm = (v, .notFound) ∨
    RemoveSpec v parent nm (v.dirRemoveEntry e parent nm) := by
  cases hn : v.named parent nm with
  | some ino => exact .inr (dirRemoveEntry_spec he h.sound hp.1 (h.dirs parent hp) nm hn)
  | none =>
    refine .inl ⟨rfl, ?_⟩
    rcases dirRemoveEntry_eq he hp.1.1 (h.dirs parent hp) nm with ⟨-, hr⟩ | ⟨k, d, hf, -, -⟩
    · exact hr
    · unfold named at hn
      rw [v.find_entries, hf] at hn
      cases hn

/-! ## `noxfs_rename` -/

def Vol.ftOf (v : Vol) (ino : Nat) : Nat := if (v.inode ino).isDir then ftDir else ftFile

/-- What the new entry replaces is unlinked; `u` is the volume then and the inode that was freed. -/
def Replaced (e : Heap) (v1 : Vol) (dst : Nat) (nm : Name) (ino : Nat) (u : Vol × Option Nat) : Prop :=
  (u = (v1, none) ∧ ∀ old, v1.named dst nm = some old → old = ino) ∨
  ∃ old, v1.named dst nm = some old ∧ old ≠ ino ∧ u = ((v1.unlink e dst nm).1, (v1.unlink e dst nm).2.2)

theorem rename_cases (h : v.Filed) (he : e.Ok) (hs : v.IsDirAt src) (hd : v.IsDirAt dst) (srcName dstName : Name) :
    (v.named src srcName = none ∧ v.rename e src srcName dst dstName = (v, .notFound, none)) ∨
    ∃ ino r, v.named src srcName = some ino ∧ AddSpec v dst ⟨ino, v.ftOf ino, dstName.take 23⟩ r ∧
      (r.2 ≠ .ok ∧ v.rename e src srcName dst dstName = (r.1, r.2, none) ∨
       r.2 = .ok ∧ ∃ u, Replaced (e.sub 3) r.1 dst dstName ino u ∧ v.rename e src srcName dst dstName =
        ((u.1.dirRemoveEntry (e.sub 4) src srcName).1, (u.1.dirRemoveEntry (e.sub 4) src srcName).2, u.2)) := by
  unfold rename
  rw [h.dirLookupName (he.sub 0) hs]
  cases hn : v.named src srcName with
  | none => exact .inl ⟨rfl, rfl⟩
  | some ino =>
    have hi := (h.named_allocated hs hn).1
    have hkind : v.ftOf ino < 256 := by
      unfold ftOf
      split <;> decide
    have hadd := h.addSpec (he.sub 1) hd hi dstName hkind
    dsimp only
    rw [iread_of_lt hi.1]
    dsimp only
    rw [show (if (v.inode ino).isDir = true then ftDir else ftFile) = v.ftOf ino from rfl]
    generalize v.dirAddEntry (e.sub 1) dst dstName ino (v.ftOf ino) = r at hadd
    refine .inr ⟨ino, r, rfl, hadd, ?_⟩
    by_cases hok : r.2 = .ok
    · refine .inr ⟨hok, _, ?_, by rw [if_neg (not_not.2 hok)]⟩
      have hd1 : r.1.IsDirAt dst := (hadd.isDirAt dst).2 hd
      rw [(h.add hadd hi).dirLookupName (he.sub 2) hd1]
      cases ho : r.1.named dst dstName with
      | none => exact .inl ⟨rfl, fun old hx => by rw [ho] at hx; cases hx⟩
      | some old =>
        by_cases heq : old = ino
        · simp only [if_pos heq]
          refine .inl ⟨rfl, fun o hx => ?_⟩
          rw [ho] at hx
          rw [← Option.some.inj hx, heq]
        · simp only [if_neg heq]
          exact .inr ⟨old, ho, heq, rfl⟩
    · exact .inl ⟨hok, by rw [if_pos hok]⟩

theorem Vol.Filed.unlink_isDirAt (h : v.Filed) (he : e.Ok) (hp : v.IsDirAt parent) (nm : Name) (hi : v.IsDirAt i)
    (hne : ∀ ino, v.Frees parent nm ino → i ≠ ino) : (v.unlink e parent nm).1.IsDirAt i := by
  rcases unlink_cases h he hp nm with ⟨⟨st, -, hr⟩, -⟩ | ⟨ino, w, hu, ⟨hl, -, hf⟩ | ⟨-, -, hf⟩⟩
  · rw [hr]
    exact hi
  · have hw : w.IsDirAt i := (hu.removed.isDirAt i).2 hi
    refine ⟨(hf.allocated i).2 ⟨hw.1, hne ino ⟨hu.named, hu.ne_root, hu.empty, hl⟩⟩, ?_⟩
    rw [(hf.kept hu.removed.sound).isDir hw.1]
    exact hw.2
  · have hw : w.IsDirAt i := (hu.removed.isDirAt i).2 hi
    exact ⟨(hf.allocated i).2 hw.1, by rw [hf.kept.isDir hw.1]; exact hw.2⟩

theorem Vol.DirOk.size_eq (h : v.DirOk i) : (v.inode i).size = 32 * (v.entries i).length := by
  have := h.whole
  unfold entries
  rw [length_map, length_range]
  omega

variable {ent : Dirent}

theorem AddSpec.named_old (ha : AddSpec v dst ent r) (hok : r.2 = .ok)
    (hn : r.1.named dst nm = some old) (hne : old ≠ ent.inode) : v.named dst nm = some old := by
  unfold named at hn ⊢
  rw [ha.added hok, find?_append] at hn
  cases hf : (v.entries dst).find? (Dirent.hit nm) with
  | some x =>
    rw [hf] at hn
    exact hn
  | none =>
    rw [hf, Option.none_or, find?_cons] at hn
    split at hn
    · exact absurd (Option.some.inj hn).symm hne
    · cases hn

theorem AddSpec.frees (h : v.Filed) (hd : v.IsDirAt dst) (ha : AddSpec v dst ent r) (hok : r.2 = .ok)
    (hf : r.1.Frees dst nm old) (hne : old ≠ ent.inode) : v.Frees dst nm old := by
  have hn := ha.named_old hok hf.named hne
  have hi := (h.named_allocated hd hn).1
  obtain ⟨data, size, hst⟩ := ha.store
  refine ⟨hn, by rw [← hst.rootIno]; exact hf.ne_root, fun hdir => ?_, ?_⟩
  · have hle := hf.empty (by rw [hst.isDir hi.1]; exact hdir)
    by_cases ho : old = dst
    · have h1 := (h.dirs dst hd).size_eq
      have h2 := ha.dirOk.size_eq
      rw [ha.added hok, length_append] at h2
      rw [ho] at hle ⊢
      omega
    · rwa [hst.inodes old hi.1 ho] at hle
  · have hl := hf.links
    by_cases ho : old = dst
    · rwa [ho, hst.links, ← ho] at hl
    · rwa [hst.inodes old hi.1 ho] at hl

theorem AddSpec.sole (h : v.Filed) (ha : AddSpec v dst ent r) (hok : r.2 = .ok)
    (hn : v.named dst nm = some old) (hne : old ≠ ent.inode) (hs : v.Sole dst nm old) : r.1.Sole dst nm old := by
  intro i hi hio x hx
  have hi' := (ha.isDirAt i).1 hi
  have hsole := hs i hi' hio
  unfold entriesBut at hx hsole
  by_cases hid : i = dst
  · subst hid
    obtain ⟨y, hy, hhit, -⟩ := named_some hn
    rw [if_pos rfl] at hx hsole
    rw [ha.added hok, eraseP_append_left hhit _ hy] at hx
    rcases mem_append.1 hx with hx | hx
    · exact hsole x hx
    · rw [mem_singleton.1 hx]
      exact hne.symm
  · rw [if_neg hid] at hx hsole
    rw [(ha.same hi'.1 hid).entries_eq (h.dirs i hi')] at hx
    exact hsole x hx

/-- An inode that `noxfs_rename` frees has no other record, and is not the directory the source is in. -/
def Vol.RenameOk (v : Vol) (src : Nat) (srcName : Name) (dst : Nat) (dstName : Name) : Prop :=
  ∀ old, v.Frees dst dstName old → v.named src srcName ≠ some old → v.Sole dst dstName old ∧ src ≠ old

theorem Vol.Filed.removeEntry (h : v.Filed) (he : e.Ok) (hp : v.IsDirAt parent) (nm : Name) :
    (v.dirRemoveEntry e parent nm).1.Filed := by
  rcases h.dirRemoveEntry he hp nm with ⟨-, hr⟩ | hr
  · rw [hr]
    exact h
  · exact h.removed hr

theorem Vol.Filed.rename (h : v.Filed) (he : e.Ok) (hs : v.IsDirAt src) (hd : v.IsDirAt dst)
    (srcName dstName : Name) (hok : v.RenameOk src srcName dst dstName) : (v.rename e src srcName dst dstName).1.Filed := by
  rcases rename_cases h he hs hd srcName dstName with ⟨-, hr⟩ | ⟨ino, r, hn, hadd, hfail | ⟨hadded, u, hu, hr⟩⟩
  · rw [hr]
    exact h
  · rw [hfail.2]
    exact h.add hadd (h.named_allocated hs hn).1
  · have h1 := h.add hadd (h.named_allocated hs hn).1
    have hs1 := (hadd.isDirAt src).2 hs
    rw [hr]
    rcases hu with ⟨rfl, -⟩ | ⟨old, hold, hne, rfl⟩
    · exact h1.removeEntry (he.sub 4) hs1 srcName
    have hd1 := (hadd.isDirAt dst).2 hd
    have hfrees : ∀ o, r.1.Frees dst dstName o → r.1.Sole dst dstName o ∧ src ≠ o := by
      intro o ho
      obtain rfl := Option.some.inj (hold.symm.trans ho.named)
      have hv := hadd.frees h hd hadded ho hne
      obtain ⟨hsole, hsrc⟩ := hok old hv (by rw [hn]; exact fun hx => hne (Option.some.inj hx).symm)
      exact ⟨hadd.sole h hadded hv.named hne hsole, hsrc⟩
    have h2 := h1.unlink (he.sub 3) hd1 dstName (fun o ho => (hfrees o ho).1)
    exact h2.removeEntry (he.sub 4) (h1.unlink_isDirAt (he.sub 3) hd1 dstName hs1 (fun o ho => (hfrees o ho).2)) srcName

end
end Noxis
