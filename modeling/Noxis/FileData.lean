import Noxis.VolumeInv
/-!
# FileData — `_iget_block` and the loop of `_store_data` on a sound volume

`igetBlock_spec` says what mapping a logical block of a file's inode copy does: the block it answers is the pointer in
that block's slot, at most two empty slots are filled with fresh blocks, and it fails only when blocks run out.
`storeBlocks_spec` carries this through the loop of `_store_data`, which works on a copy of the inode, and `Wf.putInode`
writes the copy back.
-/
namespace Noxis

open Function Bitmap Vol Finset

theorem igetBlock_read (v : Vol) (n : Inode) (l : Nat) : (v.igetBlock n l false).2.2 = ptr v.disk n (slotOf l) := by
  unfold igetBlock slotOf
  by_cases hl : l < 10
  · simp [hl, directBlock, ptr]
  by_cases hl' : 128 ≤ l - 10
  · simp [hl, hl', ptr]
  · by_cases h0 : n.indirect = 0
    · simp [hl, hl', ensureIndirect, h0, ptr]
    · simp [hl, hl', ensureIndirect, h0, ptr, listedBlock]

/-! ## Mapping a block -/

/-- Volume and inode copy have grown from `v`, `n` to `v1`, `n1`: pointers are kept, new ones are fresh blocks, every block
that is newly marked is in a slot, and no block in use is overwritten but those in `W` (and the superblock and block
bitmap). -/
structure Grown (v : Vol) (n : Inode) (v1 : Vol) (n1 : Inode) (W : Nat → Prop) : Prop where
  kept : ∀ t, ptr v.disk n t ≠ 0 → ptr v1.disk n1 t = ptr v.disk n t
  new : ∀ t, ptr v1.disk n1 t = ptr v.disk n t ∨ v.used (ptr v1.disk n1 t) = false
  same : ∀ c, v.used c = true → c ≠ 0 → c ≠ 1 → ¬ W c → v1.disk c = v.disk c
  marks : ∀ c, v.used c = true → v1.used c = true
  owns : ∀ c, c ≠ 0 → v1.used c = true → v.used c = true ∨ ∃ t, ptr v1.disk n1 t = c
  sb : v1.sb = { v.sb with freeBlocks := v1.sb.freeBlocks }
  size : n1.size = n.size
  mode : n1.mode = n.mode
  links : n1.links = n.links

section
variable {v v1 v2 : Vol} {A : Nat → Prop} {T : Nat → Inode} {i b : Nat} {n n1 n2 : Inode} {s : Slot} {W W1 W2 : Nat → Prop}

theorem Grown.refl (v : Vol) (n : Inode) (W : Nat → Prop) : Grown v n v n W :=
  ⟨fun _ _ => rfl, fun _ => .inl rfl, fun _ _ _ _ _ => rfl, fun _ h => h, fun _ _ h => .inl h, rfl, rfl, rfl, rfl⟩

theorem Grown.trans (h1 : Grown v n v1 n1 W1) (h2 : Grown v1 n1 v2 n2 W2) (hW1 : ∀ c, v.used c = true → W1 c → W c)
    (hW2 : ∀ c, v.used c = true → W2 c → W c) : Grown v n v2 n2 W where
  kept t h0 := by
    have h := h1.kept t h0
    rw [h2.kept t (by rw [h]; exact h0), h]
  new t := by
    rcases h2.new t with h | h
    · rw [h]
      exact h1.new t
    right
    cases hu : v.used (ptr v2.disk n2 t) with
    | false => rfl
    | true =>
      rw [h1.marks _ hu] at h
      cases h
  same c hu h0 h1' hW := by
    rw [h2.same c (h1.marks c hu) h0 h1' (fun h => hW (hW2 c hu h)), h1.same c hu h0 h1' (fun h => hW (hW1 c hu h))]
  marks c hu := h2.marks c (h1.marks c hu)
  owns c h0 hu := by
    rcases h2.owns c h0 hu with hu1 | ht
    · rcases h1.owns c h0 hu1 with hu0 | ⟨t, ht⟩
      · exact .inl hu0
      · exact .inr ⟨t, by rw [h2.kept t (by rw [ht]; exact h0), ht]⟩
    · exact .inr ht
  sb := by
    rw [h2.sb, h1.sb]
  size := h2.size.trans h1.size
  mode := h2.mode.trans h1.mode
  links := h2.links.trans h1.links

theorem Vol.Took.used_eq_of (ht : v.Took v1 b) (hbmp : v.sb.blkBmp = 1) (hb1 : b ≠ 1) (hsb : v2.sb = v1.sb)
    (hind : n.indirect ≠ 1) (hdisk : ∀ c, c ≠ b → c ≠ n.indirect → v2.disk c = v1.disk c) (c : Nat) :
    v2.used c = (decide (c = b) || v.used c) := by
  have hbm : v2.disk v.sb.blkBmp = v1.disk v.sb.blkBmp := by
    rw [hbmp]
    exact hdisk 1 (fun he => hb1 he.symm) (fun he => hind he.symm)
  rw [← ht.used_eq]
  unfold used
  rw [hsb, ht.sb]
  exact congrArg (fun m => bitAt m c) hbm

theorem Grown.of_took (hbmp : v.sb.blkBmp = 1) (ht : v.Took v1 b) (hb0 : b ≠ 0) (hb1 : b ≠ 1) (hsb : v2.sb = v1.sb)
    (hind : n.indirect ≠ 1) (hdisk : ∀ c, c ≠ b → c ≠ n.indirect → v2.disk c = v1.disk c)
    (hptr : ∀ t, ptr v2.disk n1 t = if t = s then b else ptr v.disk n t) (hs : ptr v.disk n s = 0)
    (hsize : n1.size = n.size) (hmode : n1.mode = n.mode) (hlinks : n1.links = n.links) :
    Grown v n v2 n1 (fun c => c = n.indirect) where
  kept t h0 := by
    rw [hptr, if_neg (by rintro rfl; exact h0 hs)]
  new t := by
    rw [hptr]
    by_cases hts : t = s
    · rw [if_pos hts]
      exact .inr ht.fresh
    · rw [if_neg hts]
      exact .inl rfl
  same c hu h0 h1 hW := by
    have hcb : c ≠ b := by
      rintro rfl
      rw [ht.fresh] at hu
      cases hu
    rw [hdisk c hcb hW]
    exact ht.disk c h0 (by rw [hbmp]; exact h1)
  marks c hu := by
    rw [ht.used_eq_of hbmp hb1 hsb hind hdisk, hu, Bool.or_true]
  owns c _ hu := by
    rw [ht.used_eq_of hbmp hb1 hsb hind hdisk, Bool.or_eq_true, decide_eq_true_eq] at hu
    rcases hu with rfl | hu
    · exact .inr ⟨s, by rw [hptr, if_pos rfl]⟩
    · exact .inl hu
  sb := by
    rw [hsb, ht.sb]
  size := hsize
  mode := hmode
  links := hlinks

def demand (v : Vol) (n : Inode) (l : Nat) : Nat :=
  (if ptr v.disk n (slotOf l) = 0 then 1 else 0) + (if 10 ≤ l ∧ n.indirect = 0 then 1 else 0)

/-- What mapping logical block `l` of the copy `n` of inode `i` achieves. -/
structure BlockMapped (v : Vol) (A : Nat → Prop) (T : Nat → Inode) (i : Nat) (n : Inode) (l : Nat) (r : Vol × Inode × Nat) :
    Prop where
  wf : Wf r.1 A (update T i r.2.1)
  grew : Grown v n r.1 r.2.1 (fun c => c = n.indirect)
  here : ptr r.1.disk r.2.1 (slotOf l) = r.2.2
  others : ∀ t, t ≠ slotOf l → (t = .indirect → l < 10) → ptr r.1.disk r.2.1 t = ptr v.disk n t
  enough : l < 138 → demand v n l ≤ v.sb.freeBlocks →
    r.2.2 ≠ 0 ∧ r.1.sb.freeBlocks + demand v n l = v.sb.freeBlocks

theorem Wf.indirect_cases (h : Wf v A (update T i n)) (hi : A i) : n.indirect = 0 ∨ 2 < n.indirect := by
  by_cases h0 : n.indirect = 0
  · exact .inl h0
  · have hp := h.ptr_gt (s := .indirect) hi (by simpa [ptr] using h0)
    exact .inr (by simpa [ptr] using hp)

theorem Wf.took_bounds (h : Wf v A T) (ht : v.Took v1 b) : 2 < b ∧ b < 2 ^ 32 := by
  have hge := h.ge_of_free ht.fresh
  have hlt := ht.lt
  have htab := h.layout.table
  have hblk := h.layout.blocks
  omega

theorem Wf.blkBmp_ne (h : Wf v A T) : v.sb.blkBmp ≠ 0 := by
  rw [h.layout.blkBmp]
  decide

theorem Vol.Took.freeBlocks (ht : v.Took v1 b) : v1.sb.freeBlocks + 1 = v.sb.freeBlocks := by
  have h := ht.some
  rw [ht.sb]
  show v.sb.freeBlocks - 1 + 1 = v.sb.freeBlocks
  omega

theorem BlockMapped.stay {l blk : Nat} (h : Wf v A (update T i n)) (hblk : ptr v.disk n (slotOf l) = blk)
    (hen : l < 138 → demand v n l ≤ v.sb.freeBlocks → blk ≠ 0 ∧ demand v n l = 0) : BlockMapped v A T i n l (v, n, blk) where
  wf := h
  grew := Grown.refl v n _
  here := hblk
  others _ _ _ := rfl
  enough hl hd := by
    obtain ⟨h0, hz⟩ := hen hl hd
    exact ⟨h0, by simp only [hz, add_zero]⟩

theorem demand_of_free {l : Nat} (h : ptr v.disk n (slotOf l) = 0) : 0 < demand v n l := by
  unfold demand
  rw [if_pos h]
  omega

theorem BlockMapped.full {l : Nat} (h : Wf v A (update T i n)) (h0 : ptr v.disk n (slotOf l) = 0) (hb : v.balloc = none) :
    BlockMapped v A T i n l (v, n, 0) :=
  .stay h h0 fun _ hd => by
    have hpos := demand_of_free h0
    have := h.balloc_none hb
    omega

section

variable (h : Wf v A (update T i n)) (hi : A i)
include h hi

theorem directBlock_spec {l : Nat} (hl : l < 10) : BlockMapped v A T i n l (v.directBlock n l true) := by
  have hslot : slotOf l = .direct l := if_pos hl
  have hp : ptr v.disk n (.direct l) = n.block l := if_pos hl
  unfold directBlock
  by_cases h0 : n.block l = 0
  · rw [if_pos ⟨rfl, h0⟩]
    cases hb : v.balloc with
    | none =>
      exact BlockMapped.full h (by rw [hslot, hp, h0]) hb
    | some r =>
      obtain ⟨v1, b⟩ := r
      have ht := balloc_took h.blkBmp_ne hb
      obtain ⟨hb2, hb32⟩ := h.took_bounds ht
      have hptr := ptr_setBlock v.disk n l b hl hb32
      have hptr1 : ∀ t, ptr v1.disk (n.setBlock l b) t = if t = .direct l then b else ptr v.disk n t := by
        intro t
        have hcongr : ptr v1.disk (n.setBlock l b) = ptr v.disk (n.setBlock l b) := by
          apply ptr_congr
          intro hne
          rw [n.indirect_setBlock l b hl] at hne ⊢
          have := (h.indirect_cases hi).resolve_left hne
          exact ht.disk _ hne (by rw [h.layout.blkBmp]; omega)
        rw [hcongr, hptr]
      have hsl : ∀ t, t = slotOf l ↔ t = .direct l := fun t => by rw [hslot]
      refine ⟨h.link hi ht rfl (fun _ _ _ => rfl) hptr1, ?_, ?_, ?_, ?_⟩
      · refine Grown.of_took h.layout.blkBmp ht (by omega) (by omega) rfl ?_ (fun _ _ _ => rfl) hptr1 (by rw [hp, h0])
          (n.size_setBlock l b) (n.mode_setBlock l b) (n.links_setBlock l b hl)
        have := h.indirect_cases hi
        omega
      · rw [hslot, hptr1, if_pos rfl]
        show b = (n.setBlock l b).block l
        rw [n.block_setBlock l l b hb32, if_pos rfl]
      · intro t ht1 _
        rw [hptr1, if_neg (fun he => ht1 ((hsl t).2 he))]
      · intro _ _
        have hfree := ht.freeBlocks
        have hd : demand v n l = 1 := by
          unfold demand
          rw [hslot, hp, if_pos h0, if_neg (by omega)]
        show (n.setBlock l b).block l ≠ 0 ∧ v1.sb.freeBlocks + demand v n l = v.sb.freeBlocks
        rw [n.block_setBlock l l b hb32, if_pos rfl, hd]
        exact ⟨by omega, hfree⟩
  · rw [if_neg (fun hc => h0 hc.2)]
    refine BlockMapped.stay h (by rw [hslot, hp]) (fun _ _ => ⟨h0, ?_⟩)
    unfold demand
    rw [hslot, hp, if_neg h0, if_neg (by omega)]

theorem listedBlock_spec {l : Nat} (hl : 10 ≤ l) (hl' : l < 138) (hind : n.indirect ≠ 0) :
    BlockMapped v A T i n l ((v.listedBlock n.indirect (l - 10) true).1, n, (v.listedBlock n.indirect (l - 10) true).2) := by
  have hslot : slotOf l = .listed (l - 10) := if_neg (by omega)
  have hp : ptr v.disk n (.listed (l - 10)) = leRead (v.disk n.indirect) (4 * (l - 10)) 4 :=
    if_pos ⟨by omega, hind⟩
  have hind2 := (h.indirect_cases hi).resolve_left hind
  unfold listedBlock
  by_cases h0 : leRead (v.disk n.indirect) (4 * (l - 10)) 4 = 0
  · rw [if_pos ⟨rfl, h0⟩]
    cases hb : v.balloc with
    | none =>
      exact BlockMapped.full h (by rw [hslot, hp, h0]) hb
    | some r =>
      obtain ⟨v1, b⟩ := r
      have ht := balloc_took h.blkBmp_ne hb
      obtain ⟨hb2, hb32⟩ := h.took_bounds ht
      have hsame : v1.disk n.indirect = v.disk n.indirect := ht.disk _ hind (by rw [h.layout.blkBmp]; omega)
      have hread : leRead (leWrite (v1.disk n.indirect) (4 * (l - 10)) 4 b) (4 * (l - 10)) 4 = b := by
        rw [leRead_leWrite]
        exact Nat.mod_eq_of_lt hb32
      have hdisk : ∀ c, c ≠ b → c ≠ n.indirect →
          (v1.put n.indirect (leWrite (v1.disk n.indirect) (4 * (l - 10)) 4 b)).disk c = v1.disk c :=
        fun c _ hc => update_of_ne hc _ _
      have hptr1 := ptr_store_listed v.disk (v1.put n.indirect (leWrite (v1.disk n.indirect) (4 * (l - 10)) 4 b)).disk n
        (l - 10) b (by omega) hb32 hind (by rw [← hsame]; exact update_self _ _ _)
      refine ⟨h.link hi ht rfl hdisk hptr1, ?_, ?_, ?_, ?_⟩
      · exact Grown.of_took h.layout.blkBmp ht (by omega) (by omega) rfl (by omega) hdisk hptr1 (by rw [hp, h0]) rfl rfl rfl
      · show ptr _ n (slotOf l) = _
        rw [hslot, hptr1, if_pos rfl]
        exact hread.symm
      · intro t ht1 _
        rw [hslot] at ht1
        rw [hptr1, if_neg ht1]
      · intro _ _
        have hfree := ht.freeBlocks
        have hd : demand v n l = 1 := by
          unfold demand
          rw [hslot, hp, if_pos h0, if_neg (fun hc => hind hc.2)]
        simp only [hread, hd]
        exact ⟨by omega, hfree⟩
  · rw [if_neg (fun hc => h0 hc.2)]
    refine BlockMapped.stay h (by rw [hslot, hp]) (fun _ _ => ⟨h0, ?_⟩)
    unfold demand
    rw [hslot, hp, if_neg h0, if_neg (fun hc => hind hc.2)]

theorem ensureIndirect_spec (h0 : n.indirect = 0) : (v.ensureIndirect n true = none ∧ v.sb.freeBlocks = 0) ∨
    ∃ v1 n1, v.ensureIndirect n true = some (v1, n1) ∧ Wf v1 A (update T i n1) ∧ Grown v n v1 n1 (fun c => c = n.indirect) ∧
    n1.indirect ≠ 0 ∧ v.used n1.indirect = false ∧ (∀ t, t ≠ .indirect → ptr v1.disk n1 t = ptr v.disk n t) ∧
    v1.sb.freeBlocks + 1 = v.sb.freeBlocks := by
  unfold ensureIndirect
  rw [if_pos ⟨rfl, h0⟩]
  cases hb : v.balloc with
  | none => exact .inl ⟨rfl, h.balloc_none hb⟩
  | some r =>
    obtain ⟨v1, b⟩ := r
    have ht := balloc_took h.blkBmp_ne hb
    obtain ⟨hb2, hb32⟩ := h.took_bounds ht
    have hdisk : ∀ c, c ≠ b → c ≠ n.indirect → (v1.put b (fun _ => 0)).disk c = v1.disk c :=
      fun c hc _ => update_of_ne hc _ _
    have hptr1 := ptr_setIndirect v.disk (v1.put b (fun _ => 0)).disk n b hb32 h0 (update_self _ _ _)
    refine .inr ⟨v1.put b (fun _ => 0), n.setIndirect b, rfl, h.link hi ht rfl hdisk hptr1, ?_, ?_, ?_, ?_, ?_⟩
    · exact Grown.of_took h.layout.blkBmp ht (by omega) (by omega) rfl (by omega) hdisk hptr1 h0
        (n.size_setIndirect b) (n.mode_setIndirect b) (n.links_setIndirect b)
    · rw [n.indirect_setIndirect b hb32]
      omega
    · rw [n.indirect_setIndirect b hb32]
      exact ht.fresh
    · intro t hne
      rw [hptr1, if_neg hne]
    · exact ht.freeBlocks

/-- **Mapping a logical block with allocation.** -/
theorem igetBlock_spec (l : Nat) : BlockMapped v A T i n l (v.igetBlock n l true) := by
  unfold igetBlock
  by_cases hl : l < 10
  · rw [if_pos hl]
    exact directBlock_spec h hi hl
  rw [if_neg hl]
  have hslot : slotOf l = .listed (l - 10) := if_neg hl
  by_cases hl' : 128 ≤ l - 10
  · rw [if_pos hl']
    refine BlockMapped.stay h ?_ (fun hlt => by omega)
    rw [hslot]
    exact if_neg (by omega)
  rw [if_neg hl']
  by_cases h0 : n.indirect = 0
  · have hp : ptr v.disk n (slotOf l) = 0 := by
      rw [hslot]
      exact if_neg (fun hc => hc.2 h0)
    rcases ensureIndirect_spec h hi h0 with ⟨he, hfree⟩ | ⟨v1, n1, he, hwf, hgrew, hind, hnew, hsame, hfree⟩
    · rw [he]
      refine BlockMapped.stay h hp (fun _ hd => ?_)
      have := demand_of_free hp
      omega
    rw [he]
    simp only [hind, if_false]
    have hm := listedBlock_spec hwf hi (by omega : 10 ≤ l) (by omega) hind
    have hp1 : ptr v1.disk n1 (slotOf l) = 0 := by
      rw [hsame _ (slotOf_ne_indirect l), hp]
    refine ⟨hm.wf, ?_, hm.here, ?_, ?_⟩
    · refine hgrew.trans hm.grew (fun c _ hc => hc) (fun c hu hc => ?_)
      rw [hc, hnew] at hu
      cases hu
    · intro t ht1 ht2
      have hti : t ≠ .indirect := fun he => hl (ht2 he)
      rw [hm.others t ht1 (fun he => absurd he hti), hsame t hti]
    · intro hl2 hd
      have hd1 : demand v1 n1 l = 1 := by
        unfold demand
        rw [if_pos hp1, if_neg (fun hc => hind hc.2)]
      have hd0 : demand v n l = 2 := by
        unfold demand
        rw [if_pos hp, if_pos ⟨by omega, h0⟩]
      obtain ⟨hne, hcount⟩ := hm.enough hl2 (by omega)
      exact ⟨hne, by omega⟩
  · have he : v.ensureIndirect n true = some (v, n) := if_neg (fun hc => h0 hc.2)
    rw [he]
    simp only [h0, if_false]
    exact listedBlock_spec h hi (by omega) (by omega) h0

end

/-! ## The loop of `_store_data` -/

theorem Wf.put {c : Nat} {d : Nat → UInt8} (h : Wf v A T) (hc : v.sb.dataStart ≤ c) (hne : ∀ j, A j → (T j).indirect ≠ c) :
    Wf (v.put c d) A T := by
  have htab := h.layout.table
  have hdisk : ∀ k, k ≠ c → (v.put c d).disk k = v.disk k := fun k hk => update_of_ne hk _ _
  have hbmp : (v.put c d).disk v.sb.blkBmp = v.disk v.sb.blkBmp := hdisk _ (by rw [h.layout.blkBmp]; omega)
  have hino : (v.put c d).disk v.sb.inoBmp = v.disk v.sb.inoBmp := hdisk _ (by rw [h.layout.inoBmp]; omega)
  have hused : (v.put c d).used = v.used := by
    funext k
    exact congrArg (fun m => bitAt m k) hbmp
  refine ⟨h.layout, ?_, ?_, ?_, ?_⟩
  · rw [hused]
    exact h.metadata
  · rw [hused]
    refine h.owned.mono (fun _ hj => hj) (fun _ hu => hu) (fun j t hj _ => ?_)
    exact congrFun (ptr_congr (fun _ => hdisk _ (hne j hj))) t
  · show v.sb.freeBlocks = clearCount ((v.put c d).disk v.sb.blkBmp) v.sb.blockCount
    rw [hbmp]
    exact h.freeBlocks
  · show v.sb.freeInodes = clearCount ((v.put c d).disk v.sb.inoBmp) v.sb.inodeCount
    rw [hino]
    exact h.freeInodes

theorem Grown.put {c : Nat} {d : Nat → UInt8} (hbmp : v.sb.blkBmp ≠ c) (hind : n.indirect ≠ c) :
    Grown v n (v.put c d) n (fun k => k = c) := by
  have hdisk : ∀ k, k ≠ c → (v.put c d).disk k = v.disk k := fun k hk => update_of_ne hk _ _
  have hptr : ptr (v.put c d).disk n = ptr v.disk n := ptr_congr (fun _ => hdisk _ hind)
  have hused : ∀ k, (v.put c d).used k = v.used k := fun k => congrArg (fun m => bitAt m k) (hdisk _ hbmp)
  exact ⟨fun t _ => by rw [hptr], fun t => .inl (by rw [hptr]), fun k _ _ _ hk => hdisk k hk, fun k hu => (hused k).trans hu,
    fun k _ hu => .inl ((hused k).symm.trans hu), rfl, rfl, rfl, rfl⟩

def missing (v : Vol) (n : Inode) (s k : Nat) : Nat :=
  ((Finset.Ico s k).filter (fun l => ptr v.disk n (slotOf l) = 0)).card + (if 10 < k ∧ s < k ∧ n.indirect = 0 then 1 else 0)

theorem BlockMapped.missing {r : Vol × Inode × Nat} {m k : Nat} (hm : BlockMapped v A T i n m r) (hmk : m < k) (h0 : r.2.2 ≠ 0)
    (hd : v1.disk r.2.1.indirect = r.1.disk r.2.1.indirect) : missing v1 r.2.1 (m + 1) k + demand v n m = missing v n m k := by
  have hptr : ptr v1.disk r.2.1 = ptr r.1.disk r.2.1 := ptr_congr (fun _ => hd)
  have hico : Finset.Ico m k = insert m (Finset.Ico (m + 1) k) := by
    ext x
    simp only [mem_Ico, mem_insert]
    omega
  have hfil : (Finset.Ico (m + 1) k).filter (fun l => ptr v1.disk r.2.1 (slotOf l) = 0)
      = (Finset.Ico (m + 1) k).filter (fun l => ptr v.disk n (slotOf l) = 0) := by
    apply filter_congr
    intro l hl
    rw [hptr, hm.others (slotOf l) (fun he => by
      have := slotOf_inj he
      simp only [mem_Ico] at hl
      omega) (fun he => absurd he (slotOf_ne_indirect l))]
  have hnot : m ∉ (Finset.Ico (m + 1) k).filter (fun l => ptr v.disk n (slotOf l) = 0) := by
    simp
  have hcard : ((Finset.Ico m k).filter (fun l => ptr v.disk n (slotOf l) = 0)).card
      = ((Finset.Ico (m + 1) k).filter (fun l => ptr v.disk n (slotOf l) = 0)).card
        + (if ptr v.disk n (slotOf m) = 0 then 1 else 0) := by
    rw [hico, filter_insert]
    by_cases hp : ptr v.disk n (slotOf m) = 0
    · rw [if_pos hp, if_pos hp, card_insert_of_notMem hnot]
    · simp only [hp, if_false, add_zero]
  have hindir : (if 10 < k ∧ m + 1 < k ∧ r.2.1.indirect = 0 then 1 else 0)
      + (if 10 ≤ m ∧ n.indirect = 0 then 1 else 0) = if 10 < k ∧ m < k ∧ n.indirect = 0 then 1 else 0 := by
    by_cases hm10 : m < 10
    · have hi : r.2.1.indirect = n.indirect := hm.others .indirect (slotOf_ne_indirect m).symm (fun _ => hm10)
      rw [hi, if_neg (by omega : ¬ (10 ≤ m ∧ n.indirect = 0)), add_zero]
      exact if_congr (by omega) rfl rfl
    have hi : r.2.1.indirect ≠ 0 := by
      intro hz
      have hh := hm.here
      rw [show slotOf m = .listed (m - 10) from if_neg hm10] at hh
      simp only [ptr, hz, ne_eq, not_true_eq_false, and_false, if_false] at hh
      exact h0 hh.symm
    rw [if_neg (fun hc => hi hc.2.2), zero_add]
    exact if_congr (by omega) rfl rfl
  unfold Noxis.missing demand
  rw [hfil, hcard, ← hindir]
  omega

structure Stored (v : Vol) (A : Nat → Prop) (T : Nat → Inode) (i : Nat) (n : Inode) (data : Nat → UInt8) (size s m : Nat)
    (r : Vol × Inode × Bool) : Prop where
  wf : Wf r.1 A (update T i r.2.1)
  grew : Grown v n r.1 r.2.1 (fun c => ∃ t, ptr v.disk n t = c)
  written : r.2.2 = true → ∀ l, s ≤ l → l < s + m → ptr r.1.disk r.2.1 (slotOf l) ≠ 0 ∧
    ∀ x < 512, l * 512 + x < size → r.1.disk (ptr r.1.disk r.2.1 (slotOf l)) x = data (l * 512 + x)
  below : ∀ l < s, ptr v.disk n (slotOf l) ≠ 0 → r.1.disk (ptr v.disk n (slotOf l)) = v.disk (ptr v.disk n (slotOf l))
  partly : ∀ l, ptr v.disk n (slotOf l) ≠ 0 → ∀ x, r.1.disk (ptr v.disk n (slotOf l)) x = v.disk (ptr v.disk n (slotOf l)) x
    ∨ (x < 512 ∧ l * 512 + x < size ∧ r.1.disk (ptr v.disk n (slotOf l)) x = data (l * 512 + x))
  enough : s + m ≤ 138 → missing v n s (s + m) ≤ v.sb.freeBlocks → r.2.2 = true

theorem Wf.data_block (h : Wf v A (update T i n)) (hi : A i) {l : Nat} (h0 : ptr v.disk n (slotOf l) ≠ 0) :
    v.used (ptr v.disk n (slotOf l)) = true ∧ 2 < ptr v.disk n (slotOf l) ∧ v.sb.dataStart ≤ ptr v.disk n (slotOf l) ∧
      ∀ j, A j → (update T i n j).indirect ≠ ptr v.disk n (slotOf l) := by
  have hT : update T i n i = n := update_self _ _ _
  have h0' : ptr v.disk (update T i n i) (slotOf l) ≠ 0 := by rw [hT]; exact h0
  refine ⟨by simpa [hT] using h.owned.marked i (slotOf l) hi h0', by simpa [hT] using h.ptr_gt hi h0',
    by simpa [hT] using (h.owned.inData i (slotOf l) hi h0').1, fun j hj heq => ?_⟩
  have honce := h.owned.once i (slotOf l) j .indirect hi hj h0' (by rw [hT]; exact heq.symm)
  exact slotOf_ne_indirect l honce.2

/-- **The loop of `_store_data`**, by induction on the turns left. -/
theorem storeBlocks_spec (data : Nat → UInt8) (size : Nat) (hi : A i) : ∀ (m s : Nat) (v : Vol) (n : Inode),
    Wf v A (update T i n) → Stored v A T i n data size s m (storeBlocks data size m s v n)
  | 0, s, v, n, h => by
    rw [storeBlocks]
    exact ⟨h, Grown.refl v n _, fun _ l h1 h2 => by omega, fun _ _ _ => rfl, fun _ _ _ => .inl rfl, fun _ _ => rfl⟩
  | m + 1, s, v, n, h => by
    have hm := igetBlock_spec h hi s
    -- the blocks the copy already pointed to are not touched by the mapping
    have hold : ∀ l, ptr v.disk n (slotOf l) ≠ 0 →
        (v.igetBlock n s true).1.disk (ptr v.disk n (slotOf l)) = v.disk (ptr v.disk n (slotOf l)) := by
      intro l h0
      obtain ⟨hu, hgt, -, hne⟩ := h.data_block hi h0
      have hni := hne i hi
      rw [update_self] at hni
      exact hm.grew.same _ hu (by omega) (by omega) (fun he => hni he.symm)
    rw [storeBlocks]
    generalize v.igetBlock n s true = r at hm hold ⊢
    obtain ⟨v1, n1, blk⟩ := r
    by_cases hblk : blk = 0
    · rw [if_pos hblk]
      refine ⟨hm.wf, ?_, fun hf => (by cases hf), fun l _ h0 => hold l h0, fun l h0 x => .inl (congrFun (hold l h0) x), ?_⟩
      · exact hm.grew.trans (Grown.refl _ _ (fun _ => False)) (fun c _ hc => ⟨.indirect, hc.symm⟩) (fun _ _ hf => hf.elim)
      · intro hs hmiss
        have hd : demand v n s ≤ missing v n s (s + (m + 1)) := by
          unfold missing demand
          have hcard : (if ptr v.disk n (slotOf s) = 0 then 1 else 0)
              ≤ ((Finset.Ico s (s + (m + 1))).filter (fun l => ptr v.disk n (slotOf l) = 0)).card := by
            by_cases hp : ptr v.disk n (slotOf s) = 0
            · rw [if_pos hp]
              exact card_pos.2 ⟨s, mem_filter.2 ⟨mem_Ico.2 ⟨by omega, by omega⟩, hp⟩⟩
            · rw [if_neg hp]
              exact Nat.zero_le _
          have hind : (if 10 ≤ s ∧ n.indirect = 0 then 1 else 0)
              ≤ if 10 < s + (m + 1) ∧ s < s + (m + 1) ∧ n.indirect = 0 then 1 else 0 := by
            by_cases hc : 10 ≤ s ∧ n.indirect = 0
            · rw [if_pos hc, if_pos ⟨by omega, by omega, hc.2⟩]
            · rw [if_neg hc]
              exact Nat.zero_le _
          omega
        exact absurd hblk (hm.enough (by omega) (by omega)).1
    · rw [if_neg hblk]
      have hhere : ptr v1.disk n1 (slotOf s) = blk := hm.here
      have h0s : ptr v1.disk n1 (slotOf s) ≠ 0 := by rw [hhere]; exact hblk
      obtain ⟨hu, hgt, hds, hne⟩ := hm.wf.data_block hi h0s
      rw [hhere] at hu hgt hds hne
      have hni := hne i hi
      rw [update_self] at hni
      set w := v1.storeBlock data size s blk
      have hdisk : ∀ c, c ≠ blk → w.disk c = v1.disk c :=
        fun c hc => update_of_ne hc _ _
      have hptr : ptr w.disk n1 = ptr v1.disk n1 := ptr_congr (fun _ => hdisk _ hni)
      have hput : Grown v1 n1 w n1 (fun c => c = blk) :=
        Grown.put (by rw [hm.wf.layout.blkBmp]; omega) hni
      have ih := storeBlocks_spec data size hi m (s + 1) w n1 (hm.wf.put hds hne)
      have hg1 : Grown v n w n1 (fun c => ∃ t, ptr v.disk n t = c) := by
        refine hm.grew.trans hput (fun c _ hc => ⟨.indirect, hc.symm⟩) (fun c huc hc => ?_)
        rcases hm.grew.new (slotOf s) with hk | hf
        · exact ⟨slotOf s, by rw [hc, ← hhere]; exact hk.symm⟩
        · rw [hhere, ← hc, huc] at hf
          cases hf
      have hsole : ∀ l, ptr v.disk n (slotOf l) ≠ 0 → ptr v.disk n (slotOf l) = blk → l = s := fun l h0 heq => by
        have hT : update T i n1 i = n1 := update_self _ _ _
        have honce := hm.wf.owned.once i (slotOf s) i (slotOf l) hi hi (by simp only [hT]; exact h0s)
          (by simp only [hT]; rw [hhere, hm.grew.kept _ h0, heq])
        exact (slotOf_inj honce.2).symm
      refine ⟨ih.wf, ?_, ?_, ?_, ?_, ?_⟩
      · refine hg1.trans ih.grew (fun _ _ hc => hc) (fun c huc hc => ?_)
        obtain ⟨t, ht⟩ := hc
        rcases hg1.new t with hk | hf
        · exact ⟨t, by rw [← ht]; exact hk.symm⟩
        · rw [ht, huc] at hf
          cases hf
      · intro hok l hl1 hl2
        by_cases hls : l = s
        · subst hls
          have hk : ptr (v1.storeBlock data size l blk).disk n1 (slotOf l) = blk := by rw [hptr, hhere]
          have hkept := ih.grew.kept (slotOf l) (by rw [hk]; exact hblk)
          rw [hk] at hkept
          have hbelow := ih.below l (by omega) (by rw [hk]; exact hblk)
          rw [hk] at hbelow
          rw [hkept]
          refine ⟨hblk, fun x hx hsz => ?_⟩
          rw [hbelow]
          show update v1.disk blk _ blk x = _
          rw [update_self, if_pos ⟨hx, hsz⟩]
        · exact ih.written hok l (by omega) (by omega)
      · intro l hl h0
        have hkl : ptr v1.disk n1 (slotOf l) = ptr v.disk n (slotOf l) := hm.grew.kept _ h0
        have hneb : ptr v.disk n (slotOf l) ≠ blk := fun heq => by
          have := hsole l h0 heq
          omega
        have hb := ih.below l (by omega) (by rw [hptr, hkl]; exact h0)
        rw [hptr, hkl] at hb
        rw [hb, hdisk _ hneb, hold l h0]
      · intro l h0 x
        have hkl : ptr v1.disk n1 (slotOf l) = ptr v.disk n (slotOf l) := hm.grew.kept _ h0
        have hp := ih.partly l (by rw [hptr, hkl]; exact h0) x
        rw [hptr, hkl] at hp
        rcases hp with hp | hp
        · by_cases heq : ptr v.disk n (slotOf l) = blk
          · obtain rfl := hsole l h0 heq
            by_cases hc : x < 512 ∧ l * 512 + x < size
            · refine .inr ⟨hc.1, hc.2, ?_⟩
              rw [hp, heq]
              show update v1.disk blk _ blk x = _
              rw [update_self, if_pos hc]
            · left
              rw [hp, heq]
              show update v1.disk blk _ blk x = _
              rw [update_self, if_neg hc, ← heq, hold l h0]
          · left
            rw [hp, hdisk _ heq, hold l h0]
        · exact .inr hp
      · intro hs hmiss
        have hstep : missing w n1 (s + 1) (s + (m + 1)) + demand v n s
            = missing v n s (s + (m + 1)) := hm.missing (by omega) hblk (hdisk _ hni)
        have hfree : v1.sb.freeBlocks + demand v n s = v.sb.freeBlocks := (hm.enough (by omega) (by omega)).2
        refine ih.enough (by omega) ?_
        rw [show s + 1 + m = s + (m + 1) by omega]
        show missing w n1 (s + 1) (s + (m + 1)) ≤ v1.sb.freeBlocks
        omega

/-! ## The inode table -/

/-- The 64 bytes of an inode that go to disk. -/
def Inode.trunc (n : Inode) : Inode := fun x => if x < 64 then n x else 0

theorem Inode.leRead_trunc (n : Inode) (a k : Nat) (h : a + k ≤ 64) : leRead n.trunc a k = leRead n a k := by
  apply leRead_congr
  intro x _ h2
  unfold Inode.trunc
  rw [if_pos (by omega)]

theorem Inode.size_trunc (n : Inode) : n.trunc.size = n.size := n.leRead_trunc _ _ (by omega)
theorem Inode.mode_trunc (n : Inode) : n.trunc.mode = n.mode := n.leRead_trunc _ _ (by omega)
theorem Inode.links_trunc (n : Inode) : n.trunc.links = n.links := n.leRead_trunc _ _ (by omega)
theorem Inode.indirect_trunc (n : Inode) : n.trunc.indirect = n.indirect := n.leRead_trunc _ _ (by omega)
theorem Inode.block_trunc (n : Inode) (k : Nat) (hk : k < 10) : n.trunc.block k = n.block k := n.leRead_trunc _ _ (by omega)

theorem ptr_trunc (d : Nat → Nat → UInt8) (n : Inode) : ptr d n.trunc = ptr d n :=
  ptr_congr_inode d (fun k hk => n.block_trunc k hk) n.indirect_trunc

theorem inode_congr {j : Nat} (htbl : v1.sb.inoTbl = v.sb.inoTbl)
    (h : v1.disk (v.sb.inoTbl + j / 8) = v.disk (v.sb.inoTbl + j / 8)) : v1.inode j = v.inode j := by
  unfold inode
  rw [htbl, h]

/-- **An inode written to the table reads back**, and the others are as before. -/
theorem inode_putInode (v : Vol) (i : Nat) (n : Inode) (j : Nat) :
    (v.putInode i n).inode j = if j = i then n.trunc else v.inode j := by
  by_cases hb : v.sb.inoTbl + j / 8 = v.sb.inoTbl + i / 8
  · funext x
    unfold inode putInode put Inode.trunc
    simp only [hb, update_self]
    by_cases hj : j = i
    · subst hj
      by_cases hx : x < 64
      · simp only [if_pos hx, if_true, if_pos (show j % 8 * 64 ≤ j % 8 * 64 + x ∧ j % 8 * 64 + x < j % 8 * 64 + 64 by omega),
          Nat.add_sub_cancel_left]
      · simp only [if_neg hx, if_true]
    · by_cases hx : x < 64
      · simp only [if_pos hx, if_neg hj,
          if_neg (show ¬ (i % 8 * 64 ≤ j % 8 * 64 + x ∧ j % 8 * 64 + x < i % 8 * 64 + 64) by omega)]
      · simp only [if_neg hx, if_neg hj]
  · rw [if_neg (by rintro rfl; exact hb rfl)]
    exact inode_congr rfl (update_of_ne hb _ _)

def Vol.Sound (v : Vol) : Prop := Wf v v.Allocated v.inode

theorem Wf.table_block (h : Wf v A T) (hlt : i < v.sb.inodeCount) :
    2 < v.sb.inoTbl + i / 8 ∧ v.sb.inoTbl + i / 8 < v.sb.dataStart := by
  have htab := h.layout.table
  rw [h.layout.inoTbl]
  omega

theorem Wf.putInode (h : Wf v A (update v.inode i n)) (hlt : i < v.sb.inodeCount) :
    Wf (v.putInode i n) A (v.putInode i n).inode := by
  obtain ⟨hgt, hds⟩ := h.table_block hlt
  have hdisk : ∀ c, c ≠ v.sb.inoTbl + i / 8 → (v.putInode i n).disk c = v.disk c := fun c hc => update_of_ne hc _ _
  have hbmp : (v.putInode i n).disk v.sb.blkBmp = v.disk v.sb.blkBmp := hdisk _ (by rw [h.layout.blkBmp]; omega)
  have hino : (v.putInode i n).disk v.sb.inoBmp = v.disk v.sb.inoBmp := hdisk _ (by rw [h.layout.inoBmp]; omega)
  have hused : (v.putInode i n).used = v.used := by
    funext k
    exact congrArg (fun m => bitAt m k) hbmp
  have hptr : ∀ j, A j → ptr (v.putInode i n).disk ((v.putInode i n).inode j)
      = ptr v.disk (update v.inode i n j) := by
    intro j hj
    have hT : ptr (v.putInode i n).disk ((v.putInode i n).inode j)
        = ptr (v.putInode i n).disk (update v.inode i n j) := by
      rw [inode_putInode]
      by_cases hji : j = i
      · subst hji
        rw [if_pos rfl, update_self, ptr_trunc]
      · rw [if_neg hji, update_of_ne hji]
    rw [hT]
    apply ptr_congr
    intro h0
    have hin := (h.owned.inData j .indirect hj (by simpa [ptr] using h0)).1
    simp only [ptr] at hin
    exact hdisk _ (by omega)
  refine ⟨h.layout, ?_, ?_, ?_, ?_⟩
  · rw [hused]
    exact h.metadata
  · rw [hused]
    exact h.owned.mono (fun _ hj => hj) (fun _ hu => hu) (fun j t hj _ => congrFun (hptr j hj) t)
  · show v.sb.freeBlocks = clearCount ((v.putInode i n).disk v.sb.blkBmp) v.sb.blockCount
    rw [hbmp]
    exact h.freeBlocks
  · show v.sb.freeInodes = clearCount ((v.putInode i n).disk v.sb.inoBmp) v.sb.inodeCount
    rw [hino]
    exact h.freeInodes

end

end Noxis
