import Noxis.Changes
/-!
# Leaks — marked blocks and the slots they are in

`noxfs_unlink` frees the blocks that the size of an inode accounts for (`freedSlots`).  `_store_data` of a smaller size leaves the
pointers beyond it, so an inode that was cut short by `O_TRUNC`, or a directory that lost records, has blocks that are never
freed.  In every run in which each freed inode is `Vol.Trim`, without a pointer beyond its size, no block leaks (`no_leaks`).
-/
namespace Noxis

open Option

/-- Every marked block is metadata or in a slot of an allocated inode. -/
def Vol.NoLeak (v : Vol) : Prop :=
  ∀ b, v.used b = true → b < v.sb.dataStart ∨ ∃ i t, v.Allocated i ∧ ptr v.disk (v.inode i) t = b

/-- Inode `ino` has no pointer beyond its size. -/
def Vol.Trim (v : Vol) (ino : Nat) : Prop :=
  ∀ t, ptr v.disk (v.inode ino) t ≠ 0 → t ∈ freedSlots (blocksFor (v.inode ino).size)

section
variable {v w : Vol} {e : Heap} {i ino parent : Nat} {nm : Name}

theorem Vol.Sound.zero_lt (h : v.Sound) : 0 < v.sb.dataStart := by
  have := h.layout.table
  omega

theorem SameFile.ptr_eq {j : Nat} (h : SameFile v w j) (t : Slot) : ptr w.disk (w.inode j) t = ptr v.disk (v.inode j) t := by
  rw [h.inode, h.ptrs]

section

variable (hl : v.NoLeak)
include hl

theorem Vol.NoLeak.store {data : Nat → UInt8} {size : Nat} {r : Vol × Status} (h : v.Sound) (hi : v.Allocated i)
    (hst : StoreSpec v i data size r) (hok : r.2 = .ok) : r.1.NoLeak := by
  intro b hb
  rw [hst.sb]
  by_cases h0 : b = 0
  · exact .inl (by rw [h0]; exact h.zero_lt)
  rcases hst.owns hok b h0 hb with hu | ⟨t, ht⟩
  · rcases hl b hu with hlt | ⟨j, t, hj, ht⟩
    · exact .inl hlt
    · refine .inr ⟨j, t, (hst.allocated j).2 hj, ?_⟩
      by_cases hji : j = i
      · rw [hji] at ht ⊢
        rw [hst.kept t (by rw [ht]; exact h0), ht]
      · rw [(hst.others j hj hji).ptr_eq, ht]
  · exact .inr ⟨i, t, (hst.allocated i).2 hi, ht⟩

theorem Vol.NoLeak.took {mode : Nat} (h : v.Sound) (ht : v.TookInode w ino mode) : w.NoLeak := by
  have hs := ht.sprung h
  have hbmp : w.disk v.sb.blkBmp = v.disk v.sb.blkBmp := by
    have htab := h.table_block ht.lt
    exact ht.disk _ (by rw [h.layout.blkBmp]; omega) (by rw [h.layout.blkBmp, h.layout.inoBmp]; omega)
      (by rw [h.layout.blkBmp]; omega)
  intro b hb
  have hu : v.used b = true := by
    unfold Vol.used at hb ⊢
    rw [ht.sb] at hb
    exact (congrArg (fun m => Bitmap.bitAt m b) hbmp).symm.trans hb
  rw [hs.sb]
  rcases hl b hu with hlt | ⟨j, t, hj, hp⟩
  · exact .inl hlt
  · exact .inr ⟨j, t, (hs.allocated j).2 (.inl hj), by rw [(hs.same j hj).ptr_eq, hp]⟩

theorem Vol.NoLeak.dotted (hi : v.Allocated ino) (h0 : ∀ t, ptr v.disk (v.inode ino) t = 0) (h : v.Sound)
    (hd : Dotted v ino parent w) : w.NoLeak := by
  have halloc : ∀ j, v.Allocated j → w.Allocated j := fun j hj => ⟨by rw [hd.sb]; exact hj.1, by rw [hd.inUse]; exact hj.2⟩
  intro b hb
  rw [hd.sb]
  rcases hd.owns b hb with hu | ht
  · rcases hl b hu with hlt | ⟨j, t, hj, hp⟩
    · exact .inl hlt
    · by_cases hji : j = ino
      · rw [hji, h0] at hp
        exact .inl (by rw [← hp]; exact h.zero_lt)
      · exact .inr ⟨j, t, halloc j hj, by rw [(hd.same j hj hji).ptr_eq, hp]⟩
  · exact .inr ⟨ino, _, halloc ino hi, ht⟩

/-- **An inode that is freed** without a pointer beyond its size. -/
theorem Vol.NoLeak.freed (h : v.Sound) (hf : FreedInode v w ino) (htrim : v.Trim ino) : w.NoLeak := by
  intro b hb
  obtain ⟨hu, hkept⟩ := (hf.used b).1 hb
  rw [hf.sb]
  rcases hl b hu with hlt | ⟨j, t, hj, hp⟩
  · exact .inl hlt
  by_cases h0 : b = 0
  · exact .inl (by rw [h0]; exact h.zero_lt)
  · have hji : j ≠ ino := by
      rintro rfl
      exact hkept ⟨h0, t, htrim t (by rw [hp]; exact h0), hp⟩
    exact .inr ⟨j, t, (hf.allocated j).2 ⟨hj, hji⟩, by rw [(hf.same h hj).ptr_eq, hp]⟩

theorem Vol.NoLeak.relinked (hr : Relinked v w ino) : w.NoLeak := by
  intro b hb
  rw [hr.used] at hb
  rw [hr.sb]
  rcases hl b hb with hlt | ⟨j, t, hj, hp⟩
  · exact .inl hlt
  · exact .inr ⟨j, t, (hr.allocated j).2 hj, by rw [hr.kept.ptrs j hj, hp]⟩

/-! ## The calls -/

theorem Vol.NoLeak.add {ent : Dirent} {r : Vol × Status} (h : v.Sound) (hp : v.Allocated parent) (ha : AddSpec v parent ent r)
    (hok : r.2 = .ok) : r.1.NoLeak := by
  obtain ⟨data, size, hst⟩ := ha.store
  exact hl.store h hp hst hok

theorem Vol.NoLeak.removed {r : Vol × Status} (h : v.Sound) (hp : v.Allocated parent) (hr : RemoveSpec v parent nm r) :
    r.1.NoLeak := by
  obtain ⟨data, hst⟩ := hr.store
  exact hl.store h hp hst hr.ok

theorem Vol.NoLeak.creatAt (h : v.Filed) (he : e.Ok) (hp : v.IsDirAt parent) (hok : (v.creatAt e parent nm).2 ≠ none) :
    (v.creatAt e parent nm).1.NoLeak := by
  rcases creatAt_cases (e := e) h.sound parent nm with ⟨-, hr⟩ | ⟨v1, ino, ht, hr⟩
  · rw [hr] at hok
    exact absurd rfl hok
  have hs := ht.sprung h.sound
  have hi : v1.Allocated ino := (hs.allocated ino).2 (.inr rfl)
  obtain ⟨i, hsome⟩ := ne_none_iff_exists'.1 hok
  rw [hr] at hsome ⊢
  rw [enteredAs_vol]
  exact (hl.took h.sound ht).add hs.sound (hs.keeps_dir hp).1 ((h.took ht).addSpec he (hs.keeps_dir hp) hi nm (by decide))
    (enteredAs_some hsome).1

theorem Vol.NoLeak.mkdir (h : v.Filed) (he : e.Ok) (hp : v.IsDirAt parent) (hok : (v.mkdir e parent nm).2 ≠ none) :
    (v.mkdir e parent nm).1.NoLeak := by
  have hlt : parent < 2 ^ 32 := by have := hp.1.lt h.sound; omega
  rcases mkdir_cases (e := e) h.sound hlt nm with ⟨-, hr⟩ | ⟨-, -, v1, ino, ht, ⟨-, hr⟩ | ⟨w, hd, hr⟩⟩
  · rw [hr] at hok
    exact absurd rfl hok
  · rw [hr] at hok
    exact absurd rfl hok
  · have hs1 := ht.sprung h.sound
    have hs := hd.sprung hs1
    have hw := h.dotted hp.1 ht hd
    have hi : w.Allocated ino := (hs.allocated ino).2 (.inr rfl)
    have hl1 := (hl.took h.sound ht).dotted ((hs1.allocated ino).2 (.inr rfl)) (fun t => ht.ptr_zero _ t) hs1.sound hd
    obtain ⟨i, hsome⟩ := ne_none_iff_exists'.1 hok
    rw [hr] at hsome ⊢
    rw [enteredAs_vol]
    exact hl1.add hw.sound (hs.keeps_dir hp).1 (hw.addSpec (he.sub 1) (hs.keeps_dir hp) hi nm (by decide)) (enteredAs_some hsome).1

end

/-- What `noxfs_unlink` frees is another inode than the parent, without a pointer beyond its size. -/
def Vol.FreesTrim (v : Vol) (parent : Nat) (nm : Name) : Prop := ∀ ino, v.Frees parent nm ino → parent ≠ ino ∧ v.Trim ino

theorem Unlinked.same (hu : Unlinked v parent nm ino w) (hi : v.Allocated ino) (hne : parent ≠ ino) : SameFile v w ino :=
  hu.removed.same hi hne.symm

theorem SameFile.trim (hs : SameFile v w ino) (h : v.Trim ino) : w.Trim ino := by
  intro t ht
  rw [hs.ptr_eq] at ht
  rw [hs.inode]
  exact h t ht

theorem Vol.NoLeak.unlink (hl : v.NoLeak) (h : v.Filed) (he : e.Ok) (hp : v.IsDirAt parent) (nm : Name) (htrim : v.FreesTrim parent nm) :
    (v.unlink e parent nm).1.NoLeak := by
  rcases unlink_cases h he hp nm with ⟨⟨st, -, hr⟩, -⟩ | ⟨ino, w, hu, ⟨hlinks, -, hf⟩ | ⟨-, -, hf⟩⟩
  · rw [hr]
    exact hl
  · obtain ⟨hne, ht⟩ := htrim ino ⟨hu.named, hu.ne_root, hu.empty, hlinks⟩
    have hi := (h.named_allocated hp hu.named).1
    exact (hl.removed h.sound hp.1 hu.removed).freed hu.removed.sound hf ((hu.same hi hne).trim ht)
  · exact (hl.removed h.sound hp.1 hu.removed).relinked hf

/-- **The blocks of an unlinked file are free.** -/
theorem unlink_frees (h : v.Filed) (he : e.Ok) (hp : v.IsDirAt parent) (htrim : v.FreesTrim parent nm)
    (hf : v.Frees parent nm ino) {t : Slot} (h0 : ptr v.disk (v.inode ino) t ≠ 0) :
    (v.unlink e parent nm).1.used (ptr v.disk (v.inode ino) t) = false := by
  obtain ⟨hne, ht⟩ := htrim ino hf
  have hi := (h.named_allocated hp hf.named).1
  rcases unlink_cases h he hp nm with ⟨-, hrefused⟩ | ⟨j, w, hu, ⟨-, -, hfree⟩ | ⟨hlinks, -, -⟩⟩
  · rcases hrefused ino hf.named with hroot | ⟨hd, hsize⟩
    · exact absurd hroot hf.ne_root
    · have := hf.empty hd
      omega
  · obtain rfl := some.inj (hf.named.symm.trans hu.named)
    have hs := hu.same hi hne
    rw [← Bool.not_eq_true, hfree.used]
    rintro ⟨-, hkept⟩
    exact hkept ⟨h0, t, by rw [hs.inode]; exact ht t h0, hs.ptr_eq t⟩
  · obtain rfl := some.inj (hf.named.symm.trans hu.named)
    have := hf.links
    omega

theorem Vol.NoLeak.rename {src dst : Nat} {srcName dstName : Name} (hl : v.NoLeak) (h : v.Filed) (he : e.Ok) (hs : v.IsDirAt src)
    (hd : v.IsDirAt dst) (hren : v.RenameOk src srcName dst dstName)
    (htrim : ∀ old, v.Frees dst dstName old → v.named src srcName ≠ some old → dst ≠ old ∧ v.Trim old)
    (hok : (v.rename e src srcName dst dstName).2.1 = .ok) : (v.rename e src srcName dst dstName).1.NoLeak := by
  rcases rename_cases h he hs hd srcName dstName with ⟨-, hr⟩ | ⟨ino, r, hn, hadd, hfail | ⟨hadded, u, hu, hr⟩⟩
  · rw [hr]
    exact hl
  · rw [hfail.2] at hok
    exact absurd hok hfail.1
  · have hi := (h.named_allocated hs hn).1
    have h1 := h.add hadd hi
    have hl1 := hl.add h.sound hd.1 hadd hadded
    have hs1 := (hadd.isDirAt src).2 hs
    have hd1 := (hadd.isDirAt dst).2 hd
    have hother : ∀ {o}, r.1.named dst dstName = some o → o ≠ ino → r.1.Frees dst dstName o →
        v.Frees dst dstName o ∧ v.named src srcName ≠ some o := fun ho hne hf =>
      ⟨hadd.frees h hd hadded hf hne, by rw [hn]; exact fun hx => hne (some.inj hx).symm⟩
    have hu1 : u.1.Filed ∧ u.1.IsDirAt src ∧ u.1.NoLeak := by
      rcases hu with ⟨rfl, -⟩ | ⟨old, hold, hne, rfl⟩
      · exact ⟨h1, hs1, hl1⟩
      have hfrees : ∀ o, r.1.Frees dst dstName o → (r.1.Sole dst dstName o ∧ src ≠ o) ∧ dst ≠ o ∧ r.1.Trim o := by
        intro o ho
        obtain rfl := some.inj (hold.symm.trans ho.named)
        obtain ⟨hv, hsrc⟩ := hother hold hne ho
        obtain ⟨hsole, hne'⟩ := hren old hv hsrc
        obtain ⟨hdst, ht⟩ := htrim old hv hsrc
        exact ⟨⟨hadd.sole h hadded hv.named hne hsole, hne'⟩, hdst,
          (hadd.same (h.named_allocated hd hv.named).1 hdst.symm).trim ht⟩
      exact ⟨h1.unlink (he.sub 3) hd1 dstName (fun o ho => (hfrees o ho).1.1),
        h1.unlink_isDirAt (he.sub 3) hd1 dstName hs1 (fun o ho => (hfrees o ho).1.2),
        hl1.unlink h1 (he.sub 3) hd1 dstName (fun o ho => (hfrees o ho).2)⟩
    rw [hr]
    rcases hu1.1.dirRemoveEntry (he.sub 4) hu1.2.1 srcName with ⟨-, hrem⟩ | hrem
    · rw [hrem]
      exact hu1.2.2
    · exact hu1.2.2.removed hu1.1.sound hu1.2.1.1 hrem

end

namespace Fs

variable {fs : Fs} {e : Heap} {k : Nat}

/-- The call keeps the structure, succeeds, and frees no inode with a pointer beyond its size. -/
def LeakOk (fs : Fs) (c : Heap × Change) : Prop :=
  fs.ChangeOk c ∧ (fs.change c).2 = true ∧ match c.2 with
  | .unlink parent nm => fs.vol.FreesTrim parent nm
  | .rmdir parent nm => fs.vol.FreesTrim parent nm
  | .rename src srcName dst dstName =>
    ∀ old, fs.vol.Frees dst dstName old → fs.vol.named src srcName ≠ some old → dst ≠ old ∧ fs.vol.Trim old
  | _ => True

theorem evictFreed_vol (fs : Fs) (o : Option Nat) : (fs.evictFreed o).vol = fs.vol := by
  unfold evictFreed
  split
  · rfl
  · unfold evict
    split <;> rfl

section

variable (h : fs.Upright) (hl : fs.vol.NoLeak)
include h hl

theorem creat_noLeak (he : e.Ok) (nm : Name) (hok : (fs.creat e nm).2.isSome = true) : (fs.creat e nm).1.vol.NoLeak := by
  rcases creat_cases e fs nm with ⟨hnone, -⟩ | ⟨hnone, -⟩ | ⟨v, ino, f, hc, -, -, -, hvol, -⟩
  · rw [hnone] at hok
    cases hok
  · rw [hnone] at hok
    cases hok
  · have hn : (fs.vol.creatAt (e.sub 1) fs.vol.sb.rootIno nm).1.NoLeak :=
      hl.creatAt h.filed (he.sub 1) h.filed.root (by rw [hc]; exact some_ne_none ino)
    rw [hvol]
    rwa [hc] at hn

theorem write_noLeak {offset : Nat} {data : List UInt8} (hw : fs.WriteOk k offset data.length)
    (hok : (fs.write e k offset data).2.isSome = true) : (fs.write e k offset data).1.vol.NoLeak := by
  rcases h.write_store (e := e) hw with hr | hr | ⟨hp, hst⟩
  · rw [hr] at hok
    cases hok
  · rw [hr]
    exact hl
  · rw [hp.vol]
    refine hl.store h.filed.sound hw.allocated hst ?_
    by_contra hx
    rw [hp.answer, if_neg hx] at hok
    cases hok

theorem NoLeak.change (c : Heap × Change) (hok : fs.LeakOk c) : (fs.change c).1.vol.NoLeak := by
  obtain ⟨e, c⟩ := c
  obtain ⟨⟨he, hch⟩, hsucc, htrim⟩ := hok
  cases c with
  | creat nm => exact creat_noLeak h hl he nm hsucc
  | mkdir parent nm => exact hl.mkdir h.filed he hch (isSome_iff_ne_none.1 hsucc)
  | write k offset data => exact write_noLeak h hl hch hsucc
  | unlink parent nm =>
    exact (evictFreed_vol _ _).symm ▸ hl.unlink h.filed he hch.1 nm htrim
  | rmdir parent nm =>
    refine (evictFreed_vol _ _).symm ▸ ?_
    rcases rmdir_cases h.filed he hch.1 nm with ⟨st, -, hr⟩ | ⟨hr, -⟩
    · rw [hr]
      exact hl
    · rw [hr]
      exact hl.unlink h.filed (he.sub 1) hch.1 nm htrim
  | rename src srcName dst dstName =>
    exact (evictFreed_vol _ _).symm ▸ hl.rename h.filed he hch.1 hch.2.1 hch.2.2 htrim (of_decide_eq_true hsucc)
  | trunc nm =>
    have hvol := lookup_vol e fs nm
    unfold Fs.change
    dsimp only
    generalize fs.lookup e nm = r at hvol
    obtain ⟨fs1, o⟩ := r
    cases o with
    | none => exact hvol.symm ▸ hl
    | some k => exact hvol.symm ▸ hl

end

/-- **No block leaks.**  From a filed volume without leaks, in every run of calls that succeed, keep the structure and free no
inode with a pointer beyond its size: every marked block is metadata or in a slot of an allocated inode; and each time
`noxfs_unlink` frees an inode, every block that was in a slot of it is free afterwards. -/
theorem no_leaks (fs : Fs) (hfs : fs.vol.Filed) (hleak : fs.vol.NoLeak) (hwords : ∀ k < fs.count, (fs.files k).size < 2 ^ 32)
    (cs : List (Heap × Change)) (hok : ∀ pre c post, cs = pre ++ c :: post → (run change fs pre).1.LeakOk c) (v : Vol)
    (hv : (run change fs cs).1.vol = v) :
    (∀ b, v.used b = true → b < v.sb.dataStart ∨ ∃ i t, v.Allocated i ∧ ptr v.disk (v.inode i) t = b) ∧
    ∀ pre e parent nm post, cs = pre ++ (e, .unlink parent nm) :: post → ∀ ino, (run change fs pre).1.vol.Frees parent nm ino →
      ∀ t, ptr (run change fs pre).1.vol.disk ((run change fs pre).1.vol.inode ino) t ≠ 0 →
        (run change fs (pre ++ [(e, .unlink parent nm)])).1.vol.used
          (ptr (run change fs pre).1.vol.disk ((run change fs pre).1.vol.inode ino) t) = false := by
  have hrun : ∀ is, (∀ pre c post, is = pre ++ c :: post → (run change fs pre).1.LeakOk c) →
      (run change fs is).1.Upright ∧ (run change fs is).1.vol.NoLeak := fun is his =>
    run_inv (P := fun s => s.Upright ∧ s.vol.NoLeak) (C := LeakOk)
      (fun s c h hc => ⟨h.1.change c hc.1, NoLeak.change h.1 h.2 c hc⟩) is fs ⟨⟨hfs, hwords⟩, hleak⟩ his
  refine ⟨hv ▸ (hrun cs hok).2, fun pre e parent nm post hcs ino hf t h0 => ?_⟩
  have hpre := hrun pre (fun p c q hp => hok p c (q ++ (e, .unlink parent nm) :: post) (by
    rw [hcs, hp, List.append_assoc, List.cons_append]))
  obtain ⟨⟨he, hch⟩, -, htrim⟩ := hok pre _ post hcs
  rw [run_append]
  show ((run change fs pre).1.unlink e parent nm).1.vol.used _ = false
  rw [Fs.unlink, evictFreed_vol]
  exact unlink_frees hpre.1.filed he hch.1 htrim hf h0

theorem rootVol_noLeak : rootVol.NoLeak := by
  intro b hb
  have hlt : ∀ b < 8, rootVol.used b = true → b < 4 := by decide +kernel
  by_cases h8 : b < 8
  · exact .inl (hlt b h8 hb)
  have hzero : rootVol.disk rootVol.sb.blkBmp (b / 8) = 0 := by
    have hne : b / 8 ≠ 0 := by omega
    show (if (1 : Nat) = 1 ∧ b / 8 = 0 then (0x0F : UInt8) else if (1 : Nat) = 2 ∧ b / 8 = 0 then 1 else 0) = 0
    rw [if_neg (fun hc => hne hc.2), if_neg (fun hc => hne hc.2)]
  unfold Vol.used Bitmap.bitAt at hb
  rw [hzero] at hb
  simp at hb

theorem trim_of_empty {v : Vol} {ino : Nat} (hd : ∀ k < 10, (v.inode ino).block k = 0) (hi : (v.inode ino).indirect = 0) :
    v.Trim ino := by
  intro t ht
  cases t with
  | direct k =>
    by_cases hk : k < 10
    · exact absurd ((if_pos hk).trans (hd k hk)) ht
    · exact absurd (if_neg hk) ht
  | indirect => exact absurd hi ht
  | listed k => exact absurd (if_neg (fun hc => hc.2 hi)) ht

/-- A file that never had a block is removed; block 4 is the root directory's. -/
theorem no_leaks_removed : 4 < (run change (bare rootVol) creatUnlink).1.vol.sb.dataStart ∨
    ∃ i t, (run change (bare rootVol) creatUnlink).1.vol.Allocated i ∧
      ptr (run change (bare rootVol) creatUnlink).1.vol.disk ((run change (bare rootVol) creatUnlink).1.vol.inode i) t = 4 := by
  refine (no_leaks (bare rootVol) rootVol_filed rootVol_noLeak (fun k hk => absurd hk (Nat.not_lt_zero k)) creatUnlink
    (fun pre c post h => ⟨creatUnlink_ok pre c post h, ?_⟩) _ rfl).1 4 (by decide +kernel)
  revert pre c post
  refine splits_cons.2 ⟨⟨by decide +kernel, trivial⟩, splits_cons.2 ⟨?_, splits_nil⟩⟩
  have hnamed : (run change (bare rootVol) [(calm, .creat [97])]).1.vol.named 0 [97] = some 1 := by decide +kernel
  refine ⟨by decide +kernel, fun ino hf => ?_⟩
  obtain rfl := some.inj (hnamed.symm.trans hf.named)
  exact ⟨by decide, trim_of_empty (by decide +kernel) (by decide +kernel)⟩

def cutShort : Fs × List Bool := run change (bare rootVol)
  [(calm, .creat [97]), (calm, .write 0 512 [1]), (calm, .trunc [97]), (calm, .write 0 0 [1]), (calm, .unlink 0 [97])]

/-- **The second block stays behind**: every call succeeds, and block 6 is marked and in no slot. -/
theorem cut_file_leaks : cutShort.2 = [true, true, true, true, true] ∧ cutShort.1.vol.used 6 = true ∧
    cutShort.1.vol.sb.dataStart ≤ 6 ∧ ∀ i t, cutShort.1.vol.Allocated i → ptr cutShort.1.vol.disk (cutShort.1.vol.inode i) t ≠ 6 := by
  refine ⟨by decide +kernel, by decide +kernel, by decide +kernel, fun i t hi => ?_⟩
  have hcount : cutShort.1.vol.sb.inodeCount = 8 := by decide +kernel
  have honly : ∀ i < 8, cutShort.1.vol.inUse i = true → i = 0 := by decide +kernel
  have hblock : ∀ k < 10, (cutShort.1.vol.inode 0).block k ≠ 6 := by decide +kernel
  have hind : (cutShort.1.vol.inode 0).indirect = 0 := by decide +kernel
  obtain rfl := honly i (Nat.lt_of_lt_of_eq hi.1 hcount) hi.2
  cases t with
  | direct k =>
    by_cases hk : k < 10
    · exact fun hx => hblock k hk ((if_pos hk).symm.trans hx)
    · exact fun hx => absurd ((if_neg hk).symm.trans hx) (by decide)
  | indirect => exact fun hx => absurd (hind.symm.trans hx) (by decide)
  | listed k => exact fun hx => absurd ((if_neg (fun hc => hc.2 hind)).symm.trans hx) (by decide)

end Fs
end Noxis
