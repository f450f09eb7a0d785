import Noxis.FileData
/-!
# FileStore — `_store_data` and `_load_data` round trip

`storeData_spec` is the specification of `_store_data` on a sound volume: the volume stays sound, every other file keeps
its inode, pointers and blocks (`SameFile`), and the file itself either has the new size and data, or, when blocks ran
out, its old inode.  `loadData_eq` says which bytes `_load_data` reads.  Together they give `store_load_round_trip`.
-/
namespace Noxis

open List Option Function Bitmap Vol

structure SameFile (v v1 : Vol) (i : Nat) : Prop where
  inode : v1.inode i = v.inode i
  ptrs : ptr v1.disk (v.inode i) = ptr v.disk (v.inode i)
  blocks : ∀ t, ptr v.disk (v.inode i) t ≠ 0 → v1.disk (ptr v.disk (v.inode i) t) = v.disk (ptr v.disk (v.inode i) t)

theorem SameFile.trans {v v1 v2 : Vol} {i : Nat} (h1 : SameFile v v1 i) (h2 : SameFile v1 v2 i) : SameFile v v2 i := by
  obtain ⟨hi, hp, hb⟩ := h2
  rw [h1.inode] at hi hp hb
  refine ⟨hi, hp.trans h1.ptrs, fun t h0 => ?_⟩
  rw [h1.ptrs] at hb
  rw [hb t h0, h1.blocks t h0]

section
variable {v v1 v2 : Vol} {A : Nat → Prop} {T : Nat → Inode} {i b : Nat} {n n1 : Inode} {W : Nat → Prop}

theorem indirect_ne {d : Nat → Nat → UInt8} {n : Inode} {k : Nat} (h0 : ptr d n (.listed k) ≠ 0) : n.indirect ≠ 0 :=
  fun hz => h0 (if_neg (fun hc => hc.2 hz))

theorem Grown.old_ptr (h : Grown v n v1 n1 W) {t : Slot} (h0 : ptr v1.disk n t ≠ 0) : ptr v1.disk n t = ptr v1.disk n1 t := by
  cases t with
  | direct k => exact (h.kept (.direct k) h0).symm
  | indirect => exact (h.kept .indirect h0).symm
  | listed k =>
    have heq : n1.indirect = n.indirect := h.kept .indirect (indirect_ne h0)
    simp only [ptr, heq]

theorem Grown.old_kept (h : Grown v n v1 n1 W) {t : Slot} (h0 : ptr v.disk n t ≠ 0) : ptr v1.disk n t = ptr v.disk n t := by
  cases t with
  | direct k => rfl
  | indirect => rfl
  | listed k =>
    have heq : n1.indirect = n.indirect := h.kept .indirect (indirect_ne h0)
    have hk := h.kept (.listed k) h0
    simp only [ptr, heq] at hk ⊢
    exact hk

structure StoreSpec (v : Vol) (i : Nat) (data : Nat → UInt8) (size : Nat) (r : Vol × Status) : Prop where
  sound : r.1.Sound
  sb : r.1.sb = { v.sb with freeBlocks := r.1.sb.freeBlocks }
  inUse : r.1.inUse = v.inUse
  marks : ∀ c, v.used c = true → r.1.used c = true
  owns : r.2 = .ok → ∀ c, c ≠ 0 → r.1.used c = true → v.used c = true ∨ ∃ t, ptr r.1.disk (r.1.inode i) t = c
  fresh : ∀ t, ptr v.disk (v.inode i) t = 0 → ptr r.1.disk (r.1.inode i) t ≠ 0 →
    v.used (ptr r.1.disk (r.1.inode i) t) = false
  inodes : ∀ j, j < v.sb.inodeCount → j ≠ i → r.1.inode j = v.inode j
  others : ∀ j, v.Allocated j → j ≠ i → SameFile v r.1 j
  mode : (r.1.inode i).mode = (v.inode i).mode
  links : (r.1.inode i).links = (v.inode i).links
  kept : ∀ t, ptr v.disk (v.inode i) t ≠ 0 → ptr r.1.disk (r.1.inode i) t = ptr v.disk (v.inode i) t
  status : r.2 = .ok ∨ r.2 = .oom
  newSize : r.2 = .ok → (r.1.inode i).size = size
  written : r.2 = .ok → ∀ l < blocksFor size, ptr r.1.disk (r.1.inode i) (slotOf l) ≠ 0 ∧
    ∀ x < 512, l * 512 + x < size → r.1.disk (ptr r.1.disk (r.1.inode i) (slotOf l)) x = data (l * 512 + x)
  failed : r.2 = .oom → r.1.inode i = v.inode i
  partly : ∀ l, ptr v.disk (v.inode i) (slotOf l) ≠ 0 → ∀ x,
    r.1.disk (ptr v.disk (v.inode i) (slotOf l)) x = v.disk (ptr v.disk (v.inode i) (slotOf l)) x ∨
    (x < 512 ∧ l * 512 + x < size ∧ r.1.disk (ptr v.disk (v.inode i) (slotOf l)) x = data (l * 512 + x))
  enough : blocksFor size ≤ 138 → missing v (v.inode i) 0 (blocksFor size) ≤ v.sb.freeBlocks → r.2 = .ok

theorem SameFile.of_grew {j : Nat} (hw : Wf v A T) (hj : A j) (hT : T j = v.inode j) (hg : Grown v n v1 n1 W)
    (hW : ∀ t, ptr v.disk (v.inode j) t ≠ 0 → ¬ W (ptr v.disk (v.inode j) t)) (hin : v1.inode j = v.inode j) :
    SameFile v v1 j := by
  have hblocks : ∀ t, ptr v.disk (v.inode j) t ≠ 0 →
      v1.disk (ptr v.disk (v.inode j) t) = v.disk (ptr v.disk (v.inode j) t) := by
    intro t h0
    have h0' : ptr v.disk (T j) t ≠ 0 := by rw [hT]; exact h0
    have hmark := hw.owned.marked j t hj h0'
    have hgt := hw.ptr_gt hj h0'
    rw [hT] at hmark hgt
    exact hg.same _ hmark h0 (by omega) (hW t h0)
  refine ⟨hin, ?_, hblocks⟩
  apply ptr_congr
  intro h0
  exact hblocks .indirect h0

section

variable (hw : Wf v A T) (hg : Grown v n v1 n1 W) (hW : ∀ c, W c → c = 0 ∨ v.sb.dataStart ≤ c)
include hw hg hW

theorem Grown.inUse_eq : v1.inUse = v.inUse := by
  have htab := hw.layout.table
  have hsame : v1.disk v.sb.inoBmp = v.disk v.sb.inoBmp := by
    rw [hw.layout.inoBmp]
    refine hg.same 2 (hw.metadata 2 (by omega)) (by omega) (by omega) (fun hc => ?_)
    have := hW 2 hc
    omega
  funext k
  unfold inUse
  rw [hg.sb]
  exact congrArg (fun m => bitAt m k) hsame

theorem Grown.inode_eq {j : Nat} (hj : j < v.sb.inodeCount) : v1.inode j = v.inode j := by
  obtain ⟨hgt, hds⟩ := hw.table_block hj
  refine inode_congr (by rw [hg.sb]) (hg.same _ (hw.metadata _ hds) (by omega) (by omega) (fun hc => ?_))
  have := hW _ hc
  omega

end

theorem allocated_congr {j : Nat} (hcount : v1.sb.inodeCount = v.sb.inodeCount) (hin : v1.inUse = v.inUse) :
    v1.Allocated j ↔ v.Allocated j := by
  unfold Vol.Allocated
  rw [hcount, hin]

theorem Wf.congr_allocated {A' : Nat → Prop} (h : Wf v A T) (hA : ∀ j, A' j → A j) : Wf v A' T :=
  ⟨h.layout, h.metadata, h.owned.mono hA (fun _ hu => hu) (fun _ _ _ _ => rfl), h.freeBlocks, h.freeInodes⟩

theorem storeData_spec (h : v.Sound) (hi : v.Allocated i) (data : Nat → UInt8) {size : Nat} (hsize : size < 2 ^ 32) :
    StoreSpec v i data size (v.storeData i data size) := by
  have hread : v.iread i = some (v.inode i) := by
    unfold iread
    rw [if_neg (by have := hi.1; omega)]
  set w := (v.inode i).setSize size
  have hptr0 : ptr v.disk w = ptr v.disk (v.inode i) := ptr_setSize _ _ _
  -- the loop starts on a copy of the inode that differs in its size only
  have hw : Wf v v.Allocated (update v.inode i w) := by
    refine ⟨h.layout, h.metadata, h.owned.mono (fun _ hj => hj) (fun _ hu => hu) (fun j t _ _ => ?_), h.freeBlocks,
      h.freeInodes⟩
    by_cases hji : j = i
    · subst hji
      rw [update_self, hptr0]
    · rw [update_of_ne hji]
  have hst := storeBlocks_spec data size hi (blocksFor size) 0 v _ hw
  unfold storeData
  rw [hread]
  simp only
  generalize storeBlocks data size (blocksFor size) 0 v w = r at hst ⊢
  obtain ⟨v1, n1, ok⟩ := r
  have hmiss : missing v w 0 (blocksFor size) = missing v (v.inode i) 0 (blocksFor size) := by
    unfold missing
    rw [hptr0, (v.inode i).indirect_setSize]
  have hW : ∀ c, (∃ t, ptr v.disk w t = c) → c = 0 ∨ v.sb.dataStart ≤ c := by
    rintro c ⟨t, rfl⟩
    rw [hptr0]
    by_cases h0 : ptr v.disk (v.inode i) t = 0
    · exact .inl h0
    · exact .inr (h.owned.inData i t hi h0).1
  have hg := hst.grew
  have hinUse : v1.inUse = v.inUse := hg.inUse_eq h hW
  have hinode : ∀ j, j < v.sb.inodeCount → v1.inode j = v.inode j := fun j hj => hg.inode_eq h hW hj
  have hcount : v1.sb.inodeCount = v.sb.inodeCount := by rw [show v1.sb = _ from hg.sb]
  have hsame : ∀ j, v.Allocated j → j ≠ i → SameFile v v1 j := by
    intro j hj hne
    refine SameFile.of_grew h hj rfl hg (fun t h0 hc => ?_) (hinode j hj.1)
    obtain ⟨t', ht'⟩ := hc
    rw [hptr0] at ht'
    exact hne (h.owned.once j t i t' hj hi h0 ht'.symm).1
  have hpartly : ∀ l, ptr v.disk (v.inode i) (slotOf l) ≠ 0 → ∀ x,
      v1.disk (ptr v.disk (v.inode i) (slotOf l)) x = v.disk (ptr v.disk (v.inode i) (slotOf l)) x ∨
      (x < 512 ∧ l * 512 + x < size ∧ v1.disk (ptr v.disk (v.inode i) (slotOf l)) x = data (l * 512 + x)) := by
    intro l h0 x
    have hp := hst.partly l (by rw [hptr0]; exact h0) x
    rwa [hptr0] at hp
  cases ok with
  | false =>
    have hwf1 : Wf v1 v1.Allocated v1.inode := by
      refine ⟨hst.wf.layout, hst.wf.metadata, hst.wf.owned.mono (fun j hj => (allocated_congr hcount hinUse).1 hj)
        (fun _ hu => hu) (fun j t hj h0 => ?_), hst.wf.freeBlocks, hst.wf.freeInodes⟩
      have hj' := (allocated_congr hcount hinUse).1 hj
      rw [hinode j hj'.1] at h0 ⊢
      by_cases hji : j = i
      · subst hji
        rw [update_self]
        have hs1 : ptr v1.disk ((v.inode j).setSize size) = ptr v1.disk (v.inode j) := ptr_setSize _ _ _
        rw [← hs1] at h0 ⊢
        exact hg.old_ptr h0
      · rw [update_of_ne hji]
    have hs1 : ptr v1.disk w = ptr v1.disk (v.inode i) := ptr_setSize _ _ _
    refine ⟨hwf1, hg.sb, hinUse, hg.marks, fun hf => (by cases hf), ?_, fun j hj _ => hinode j hj, hsame,
      by rw [hinode i hi.1], by rw [hinode i hi.1], ?_,
      .inr rfl, fun hf => (by cases hf), fun hf => (by cases hf), fun _ => hinode i hi.1, hpartly, ?_⟩
    · intro t h0 h1
      rw [hinode i hi.1, ← hs1] at h1 ⊢
      have hold := hg.old_ptr h1
      rw [hold] at h1 ⊢
      exact (hg.new t).resolve_left (by rw [hptr0, h0]; exact h1)
    · intro t h0
      rw [hinode i hi.1, ← hs1, ← hptr0]
      exact hg.old_kept (by rw [hptr0]; exact h0)
    · intro hb hm
      have := hst.enough (by omega) (by rw [zero_add, hmiss]; exact hm)
      cases this
  | true =>
    have hlt : ¬ v1.sb.inodeCount ≤ i := by
      rw [hcount]
      have := hi.1
      omega
    have hiw : v1.iwrite i n1 = (v1.putInode i n1, .ok) := if_neg hlt
    simp only [hiw, if_true]
    have hwu : Wf v1 v.Allocated (update v1.inode i n1) := by
      refine ⟨hst.wf.layout, hst.wf.metadata, hst.wf.owned.mono (fun _ hj => hj) (fun _ hu => hu) (fun j t hj _ => ?_),
        hst.wf.freeBlocks, hst.wf.freeInodes⟩
      by_cases hji : j = i
      · subst hji
        rw [update_self, update_self]
      · rw [update_of_ne hji, update_of_ne hji, hinode j hj.1]
    obtain ⟨htgt, htds⟩ := hwu.table_block (i := i) (by omega)
    have hds : v1.sb.dataStart = v.sb.dataStart := by rw [show v1.sb = _ from hg.sb]
    set u := v1.putInode i n1
    have hdisk : ∀ c, c ≠ v1.sb.inoTbl + i / 8 → u.disk c = v1.disk c :=
      fun c hc => update_of_ne hc _ _
    have hinUse2 : u.inUse = v.inUse := by
      rw [← hinUse]
      funext k
      exact congrArg (fun m => bitAt m k) (hdisk v1.sb.inoBmp (by rw [hwu.layout.inoBmp]; omega))
    have hin2 : u.inode i = n1.trunc := by rw [inode_putInode, if_pos rfl]
    -- blocks of the data area are not touched by the write to the inode table
    have hdata : ∀ c, v.sb.dataStart ≤ c → u.disk c = v1.disk c := fun c hc => hdisk c (by omega)
    have hptr2 : ptr u.disk n1.trunc = ptr v1.disk n1 := by
      rw [ptr_trunc]
      apply ptr_congr
      intro h0
      have hin := (hst.wf.owned.inData i .indirect hi (by rw [update_self]; exact h0)).1
      rw [update_self] at hin
      exact hdata _ (by rw [← hds]; exact hin)
    have hs2 : ∀ j, v.Allocated j → j ≠ i → SameFile v u j := by
      intro j hj hne
      have h1 := hsame j hj hne
      have hblk : ∀ t, ptr v.disk (v.inode j) t ≠ 0 →
          u.disk (ptr v.disk (v.inode j) t) = v1.disk (ptr v.disk (v.inode j) t) :=
        fun t h0 => hdata _ (h.owned.inData j t hj h0).1
      refine ⟨by rw [inode_putInode, if_neg hne, h1.inode], ?_, fun t h0 => (hblk t h0).trans (h1.blocks t h0)⟩
      rw [← h1.ptrs]
      apply ptr_congr
      intro h0
      exact hblk .indirect h0
    have hused2 : ∀ c, u.used c = v1.used c := fun c =>
      congrArg (fun m => bitAt m c) (hdisk v1.sb.blkBmp (by rw [hwu.layout.blkBmp]; omega))
    refine ⟨?_, hg.sb, hinUse2, fun c hu => (hused2 c).trans (hg.marks c hu), ?_, ?_, ?_, hs2, ?_, ?_, ?_, .inl rfl,
      ?_, ?_, fun hf => (by cases hf), ?_, fun _ _ => rfl⟩
    · have hp := hwu.putInode (i := i) (by omega)
      have hA : ∀ j, u.Allocated j → v.Allocated j := fun j hj => ⟨hcount ▸ hj.1, hinUse2 ▸ hj.2⟩
      exact hp.congr_allocated hA
    · intro _ c h0 hu
      rw [hused2] at hu
      rw [hin2, hptr2]
      exact hg.owns c h0 hu
    · intro t h0 h1
      rw [hin2, hptr2] at h1 ⊢
      exact (hg.new t).resolve_left (by rw [hptr0, h0]; exact h1)
    · intro j hj hne
      rw [inode_putInode, if_neg hne, hinode j hj]
    · rw [hin2, n1.mode_trunc]
      exact hg.mode.trans ((v.inode i).mode_setSize size)
    · rw [hin2, n1.links_trunc]
      exact hg.links.trans ((v.inode i).links_setSize size)
    · intro t h0
      rw [hin2, hptr2, ← hptr0]
      exact hg.kept t (by rw [hptr0]; exact h0)
    · intro _
      rw [hin2, n1.size_trunc]
      exact hg.size.trans ((v.inode i).size_setSize size hsize)
    · intro _ l hl
      rw [hin2, hptr2]
      obtain ⟨h0, hd⟩ := hst.written rfl l (Nat.zero_le l) (by omega)
      refine ⟨h0, fun x hx hsz => ?_⟩
      have hin := (hst.wf.owned.inData i (slotOf l) hi (by rw [update_self]; exact h0)).1
      rw [update_self] at hin
      rw [hdata _ (by rw [← hds]; exact hin)]
      exact hd x hx hsz
    · intro l h0 x
      rw [hdata _ (h.owned.inData i (slotOf l) hi h0).1]
      exact hpartly l h0 x

theorem ptr_indirect_ne {d : Nat → Nat → UInt8} {n : Inode} {l : Nat} (hl : 10 ≤ l) (h0 : ptr d n (slotOf l) ≠ 0) :
    ptr d n .indirect ≠ 0 := by
  intro hz
  rw [show slotOf l = .listed (l - 10) from if_neg (by omega)] at h0
  exact h0 (if_neg (fun hc => hc.2 hz))

/-- **What a store that succeeded had to allocate was free.**  The slots that were empty point to distinct free blocks. -/
theorem StoreSpec.missing_le {data : Nat → UInt8} {size : Nat} {r : Vol × Status} (hv : v.Sound) (hi : v.Allocated i)
    (h : StoreSpec v i data size r) (hok : r.2 = .ok) : missing v (v.inode i) 0 (blocksFor size) ≤ v.sb.freeBlocks := by
  have hcount : r.1.sb.inodeCount = v.sb.inodeCount := by rw [h.sb]
  have hblocks : r.1.sb.blockCount = v.sb.blockCount := by rw [h.sb]
  have hi1 : r.1.Allocated i := (allocated_congr hcount h.inUse).2 hi
  let listed := ((Finset.Ico 0 (blocksFor size)).filter (fun l => ptr v.disk (v.inode i) (slotOf l) = 0)).image slotOf
  let table : Finset Slot := if 10 < blocksFor size ∧ 0 < blocksFor size ∧ (v.inode i).indirect = 0 then {.indirect} else ∅
  have hcard : missing v (v.inode i) 0 (blocksFor size) = (listed ∪ table).card := by
    rw [Finset.card_union_of_disjoint, Finset.card_image_of_injective _ (fun _ _ => slotOf_inj)]
    · unfold missing
      dsimp only [table]
      split <;> rfl
    · refine Finset.disjoint_left.2 (fun t ht ht' => ?_)
      obtain ⟨l, -, rfl⟩ := Finset.mem_image.1 ht
      dsimp only [table] at ht'
      split at ht'
      · exact slotOf_ne_indirect l (Finset.mem_singleton.1 ht')
      · cases ht'
  have hfilled : ∀ t ∈ listed ∪ table, ptr v.disk (v.inode i) t = 0 ∧ ptr r.1.disk (r.1.inode i) t ≠ 0 := by
    intro t ht
    rcases Finset.mem_union.1 ht with ht | ht
    · obtain ⟨l, hl, rfl⟩ := Finset.mem_image.1 ht
      obtain ⟨hlt, h0⟩ := Finset.mem_filter.1 hl
      exact ⟨h0, (h.written hok l (Finset.mem_Ico.1 hlt).2).1⟩
    dsimp only [table] at ht
    split at ht
    · rename_i hc
      rw [Finset.mem_singleton.1 ht]
      exact ⟨hc.2.2, ptr_indirect_ne (le_refl 10) (h.written hok 10 hc.1).1⟩
    · cases ht
  rw [hcard, hv.freeBlocks]
  refine Finset.card_le_card_of_injOn (ptr r.1.disk (r.1.inode i)) (fun t ht => ?_) (fun t ht t' _ heq => ?_)
  · obtain ⟨h0, h1⟩ := hfilled t ht
    have hin := (h.sound.owned.inData i t hi1 h1).2
    rw [hblocks] at hin
    exact Finset.mem_filter.2 ⟨Finset.mem_range.2 hin, h.fresh t h0 h1⟩
  · exact (h.sound.owned.once i t i t' hi1 hi1 (hfilled t ht).2 heq).2

/-! ## Reading back -/

theorem loadBlocks_eq (v : Vol) (n : Inode) (buf : Nat → UInt8) : ∀ (k x : Nat), v.loadBlocks n buf k x =
    if x < n.size ∧ x / 512 < k ∧ ptr v.disk n (slotOf (x / 512)) ≠ 0 then v.disk (ptr v.disk n (slotOf (x / 512))) (x % 512)
    else buf x
  | 0, x => by
    rw [loadBlocks, if_neg (by omega)]
  | k + 1, x => by
    rw [loadBlocks, loadBlock, igetBlock_read]
    by_cases hx : x / 512 = k
    · subst hx
      by_cases h0 : ptr v.disk n (slotOf (x / 512)) = 0
      · rw [if_pos h0, loadBlocks_eq, if_neg (by omega), if_neg (fun hc => hc.2.2 h0)]
      · rw [if_neg h0]
        by_cases hsz : x < n.size
        · rw [if_pos ⟨by omega, by omega, hsz⟩, if_pos ⟨hsz, by omega, h0⟩, show x - x / 512 * 512 = x % 512 by omega]
        · rw [if_neg (by omega), loadBlocks_eq, if_neg (by omega), if_neg (by omega)]
    · have hrest : (if ptr v.disk n (slotOf k) = 0 then v.loadBlocks n buf k else fun y =>
          if k * 512 ≤ y ∧ y < k * 512 + 512 ∧ y < n.size then v.disk (ptr v.disk n (slotOf k)) (y - k * 512)
          else v.loadBlocks n buf k y) x = v.loadBlocks n buf k x := by
        by_cases h0 : ptr v.disk n (slotOf k) = 0
        · rw [if_pos h0]
        · rw [if_neg h0, if_neg (by omega)]
      rw [hrest, loadBlocks_eq]
      exact if_congr (and_congr_right fun _ => and_congr_left fun _ => by omega) rfl rfl

theorem SameFile.loadData_eq (e : Heap) (h : SameFile v v1 i) (hcount : v1.sb.inodeCount = v.sb.inodeCount) :
    v1.loadData e i = v.loadData e i := by
  have hblocks : ∀ buf k, v1.loadBlocks (v.inode i) buf k = v.loadBlocks (v.inode i) buf k := by
    intro buf k
    funext x
    rw [loadBlocks_eq, loadBlocks_eq, h.ptrs]
    by_cases hc : x < (v.inode i).size ∧ x / 512 < k ∧ ptr v.disk (v.inode i) (slotOf (x / 512)) ≠ 0
    · rw [if_pos hc, if_pos hc, h.blocks _ hc.2.2]
    · rw [if_neg hc, if_neg hc]
  unfold loadData iread
  rw [hcount]
  by_cases hlt : v.sb.inodeCount ≤ i
  · simp only [if_pos hlt, map_none]
  · rw [if_neg hlt, if_neg hlt, map_some, map_some, h.inode]
    simp only [hblocks]

theorem blocksFor_eq {size : Nat} (h : size ≤ 138 * 512) : blocksFor size = (size + 511) / 512 := by
  unfold blocksFor
  rw [Nat.mod_eq_of_lt (by omega)]

def bytesOf (d : List UInt8) : Nat → UInt8 := fun k => d.getD k 0

/-- **File data round trip with frame.**  On a sound volume, what `_store_data` stored in an allocated inode `_load_data`
returns, with its size; every other allocated inode loads as before; and `_store_data` succeeds whenever as many blocks
are free as are missing from the file. -/
theorem store_load_round_trip (e : Heap) (he : e.Ok) (v : Vol) (h : v.Sound) (i : Nat) (hi : v.Allocated i)
    (d : List UInt8) (hd : d.length ≤ (10 + 128) * 512) : ((v.storeData i (bytesOf d) d.length).2 = .ok →
      (∃ buf, (v.storeData i (bytesOf d) d.length).1.loadData e i = some (d.length, some buf) ∧
        (List.range d.length).map buf = d) ∧
      ∀ j, v.Allocated j → j ≠ i → (v.storeData i (bytesOf d) d.length).1.loadData e j = v.loadData e j) ∧
    (missing v (v.inode i) 0 ((d.length + 511) / 512) ≤ v.sb.freeBlocks → (v.storeData i (bytesOf d) d.length).2 = .ok) := by
  set r := v.storeData i (bytesOf d) d.length
  have hsp : StoreSpec v i (bytesOf d) d.length r :=
    storeData_spec h hi (bytesOf d) (by omega)
  have hbf : blocksFor d.length = (d.length + 511) / 512 := blocksFor_eq (by omega)
  have hcount : r.1.sb.inodeCount = v.sb.inodeCount := by rw [hsp.sb]
  refine ⟨fun hok => ⟨?_, fun j hj hne => (hsp.others j hj hne).loadData_eq e hcount⟩, fun hm => ?_⟩
  · have hsz := hsp.newSize hok
    have hwr := hsp.written hok
    generalize r.1 = v1 at hsz hwr hcount
    have hread : v1.iread i = some (v1.inode i) := by
      unfold iread
      rw [hcount, if_neg (by have := hi.1; omega)]
    unfold loadData
    rw [hread, map_some, hsz, he.kmalloc]
    by_cases h0 : d.length = 0
    · refine ⟨update (e.junk [0]) 0 0, by rw [if_pos h0, h0]; rfl, ?_⟩
      rw [h0, length_eq_zero_iff.1 h0]
      rfl
    refine ⟨v1.loadBlocks (v1.inode i) (e.junk [0]) ((d.length + 511) / 512), by rw [if_neg h0]; rfl, ?_⟩
    refine ext_getElem (by simp) (fun k hk hk' => ?_)
    rw [getElem_map, getElem_range, loadBlocks_eq, hsz]
    obtain ⟨hp, hdat⟩ := hwr (k / 512) (by rw [hbf]; omega)
    rw [if_pos ⟨hk', by omega, hp⟩, hdat (k % 512) (Nat.mod_lt _ (by decide)) (by omega),
      show k / 512 * 512 + k % 512 = k by omega]
    unfold bytesOf
    rw [getD_eq_getElem?_getD, List.getElem?_eq_getElem hk']
    rfl
  · exact hsp.enough (by rw [hbf]; omega) (by rw [hbf]; exact hm)

end

def blankVol : Vol where
  disk b x := if b = 1 ∧ x = 0 then 0x0F else if b = 2 ∧ x = 0 then 1 else 0
  sb := { magic := noxfsMagic, blockCount := 8, inodeCount := 8, freeBlocks := 4, freeInodes := 7, blkBmp := 1, inoBmp := 2,
          inoTbl := 3, dataStart := 4, rootIno := 0, pad := fun _ => 0 }

theorem blankVol_inode (i : Nat) : blankVol.inode i = fun _ => 0 := by
  funext x
  by_cases hx : x < 64
  · have hb : blankVol.disk (3 + i / 8) (i % 8 * 64 + x) = 0 := by
      unfold blankVol
      simp only
      rw [if_neg (by omega), if_neg (by omega)]
    exact (if_pos hx).trans hb
  · exact if_neg hx

theorem blankVol_ptr (i : Nat) (t : Slot) : ptr blankVol.disk (blankVol.inode i) t = 0 := by
  rw [blankVol_inode]
  cases t <;> simp [ptr, Inode.block, Inode.indirect, leRead_zero]

theorem blankVol_sound : blankVol.Sound := by
  refine ⟨⟨rfl, rfl, rfl, by decide, by decide, by decide, by decide⟩, by decide, ?_, by decide, by decide⟩
  exact ⟨fun i t _ h0 => absurd (blankVol_ptr i t) h0, fun i t _ h0 => absurd (blankVol_ptr i t) h0,
    fun i t _ _ _ _ h0 => absurd (blankVol_ptr i t) h0⟩

/-- Two bytes stored in the root inode of the blank volume come back. -/
theorem store_load_round_trip_blank :
    blankVol.Sound ∧ blankVol.Allocated 0 ∧ (blankVol.storeData 0 (bytesOf [7, 9]) 2).2 = .ok ∧
    ∃ buf, (blankVol.storeData 0 (bytesOf [7, 9]) 2).1.loadData ⟨fun _ => true, fun _ _ => 0⟩ 0 = some (2, some buf) ∧
      (List.range 2).map buf = [7, 9] := by
  have hrt := store_load_round_trip ⟨fun _ => true, fun _ _ => 0⟩ (fun _ => rfl) blankVol blankVol_sound 0
    ⟨by decide, by decide⟩ [7, 9] (by decide)
  have hok : (blankVol.storeData 0 (bytesOf [7, 9]) 2).2 = .ok := hrt.2 (by decide)
  exact ⟨blankVol_sound, ⟨by decide, by decide⟩, hok, (hrt.1 hok).1⟩

end Noxis
