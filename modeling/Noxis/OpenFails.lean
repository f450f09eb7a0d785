import Noxis.Coherent
import Noxis.Entered
/-!
# OpenFails — what a `sys_open` that answers -1 has done

`sys_open` looks the file up, creates it, truncates it and only then searches a free descriptor.  `open_failed_iff` says when a
call that answers -1 has left every file and every descriptor as it was, whatever the allocator answered.
-/
namespace Noxis

open List Option Bool Function FileRef Fs

namespace Fs

variable {fs fs1 fs2 : Fs} {e : Heap} {ino k : Nat} {f : VfsFile} {nm : List UInt8}

structure PoolSame (fs fs1 : Fs) : Prop where
  files : ∀ k, noxfsMaxFiles ≤ k → fs1.files k = fs.files k
  bufs : ∀ p ≤ 8, fs1.bufs p = fs.bufs p

theorem PoolSame.refl (fs : Fs) : fs.PoolSame fs := ⟨fun _ _ => rfl, fun _ _ => rfl⟩

theorem PoolSame.trans (h : fs.PoolSame fs1) (h' : fs1.PoolSame fs2) : fs.PoolSame fs2 :=
  ⟨fun k hk => (h'.files k hk).trans (h.files k hk), fun p hp => (h'.bufs p hp).trans (h.bufs p hp)⟩

theorem PoolSame.setFile (fs : Fs) (f : VfsFile) (hk : k < noxfsMaxFiles) : fs.PoolSame (fs.setFile k f) :=
  ⟨fun _ hj => update_of_ne (by omega) _ _, fun _ _ => rfl⟩

theorem PoolSame.newBuf (fs : Fs) (len : Nat) (bytes : Nat → UInt8) (hnext : 8 < fs.next) : fs.PoolSame (fs.newBuf len bytes) :=
  ⟨fun _ _ => rfl, fun _ hp => update_of_ne (by omega) _ _⟩

theorem loadSlot_pool (e : Heap) (ino : Nat) (hk : k < noxfsMaxFiles) (hnext : 8 < fs.next) :
    fs.PoolSame (fs.loadSlot e k ino).1 := by
  unfold loadSlot
  split
  · exact PoolSame.setFile fs _ hk
  · exact PoolSame.setFile fs _ hk
  · split
    · exact PoolSame.setFile fs _ hk
    · exact (PoolSame.newBuf fs _ _ hnext).trans (PoolSame.setFile _ _ hk)

theorem cacheFile_pool (e : Heap) (nm : Name) (ino : Nat) (hc : fs.count < noxfsMaxFiles) (hnext : 8 < fs.next) :
    fs.PoolSame (fs.cacheFile e nm ino).1 := by
  unfold cacheFile
  dsimp only
  have h1 := PoolSame.setFile fs { fs.files fs.count with name := putName (fs.files fs.count).name nm } hc
  have hn : 8 < (fs.setFile fs.count { fs.files fs.count with name := putName (fs.files fs.count).name nm }).next := hnext
  generalize fs.setFile fs.count { fs.files fs.count with name := putName (fs.files fs.count).name nm } = fs1 at h1 hn ⊢
  have h2 := h1.trans (loadSlot_pool e ino hc hn)
  generalize fs1.loadSlot e fs.count ino = r at h2 ⊢
  split
  · exact h2.trans ⟨(PoolSame.setFile r.1 _ hc).files, fun _ _ => rfl⟩
  · exact h2

/-- **A lookup does not touch the objects of procfs.** -/
theorem lookup_pool (e : Heap) (nm : List UInt8) (hnext : 8 < fs.next) : fs.PoolSame (fs.lookup e nm).1 := by
  unfold lookup
  split
  · exact PoolSame.refl fs
  split
  · exact PoolSame.refl fs
  · split
    · exact PoolSame.refl fs
    · split
      · exact PoolSame.refl fs
      · split
        · exact PoolSame.refl fs
        · split
          · exact PoolSame.refl fs
          · rename_i hc
            exact cacheFile_pool _ _ _ (not_le.1 hc) hnext

/-- **What a lookup leaves**: the entries and their buffers, and every new entry shows the file as it is on disk. -/
structure Kept (fs fs1 : Fs) : Prop where
  count : fs.count ≤ fs1.count
  files : ∀ k < fs.count, fs1.files k = fs.files k
  bufs : ∀ k < fs.count, fs1.bufs (fs.files k).data = fs.bufs (fs.files k).data
  loaded : ∀ k, fs.count ≤ k → k < fs1.count → fs1.Agrees k
  pool : fs.PoolSame fs1

theorem Kept.refl (fs : Fs) : fs.Kept fs :=
  ⟨le_refl _, fun _ _ => rfl, fun _ _ => rfl, fun _ h1 h2 => absurd h2 (by omega), PoolSame.refl fs⟩

theorem Kept.content (h : fs.Kept fs1) (hk : k < fs.count) : fs1.content k = fs.content k := by
  unfold Fs.content byte
  rw [h.files k hk, h.bufs k hk]

theorem Same.kept (h : fs.Same fs1) (ht : ∀ k < fs.count, 8 < (fs.files k).data) (hp : fs.PoolSame fs1) : fs.Kept fs1 where
  count := le_of_eq h.count.symm
  files := h.files
  bufs k hk := h.bufs _ (ht k hk)
  loaded k h1 h2 := absurd h2 (by rw [h.count]; omega)
  pool := hp

theorem Tabled.lookup_kept (h : fs.Tabled) (e : Heap) (nm : List UInt8) : fs.Kept (fs.lookup e nm).1 := by
  have hpool := lookup_pool e nm h.next
  rcases lookup_cases e fs nm with ⟨hs, -⟩ | ⟨ino, f, hres, -, hfile, hl, -⟩
  · exact hs.kept (fun k hk => (h.old k hk).1) hpool
  have hf := h.kempt.filed
  have hi := hf.resolve_allocated hf.root.1 hres
  have hnew := hl.agrees (lookup_vol e fs nm) hi (h.kempt.files ino hi hfile).2
  have hcount := hl.pushed.count
  refine ⟨by omega, hl.pushed.files, fun k hk => hl.pushed.bufs _ (h.old k hk).1 (ne_of_lt (h.old k hk).2),
    fun k h1 h2 => ?_, hpool⟩
  obtain rfl : k = fs.count := by omega
  exact hnew

theorem Tabled.lookup (h : fs.Tabled) (e : Heap) (nm : List UInt8) : (fs.lookup e nm).1.Tabled := by
  have hvol := lookup_vol e fs nm
  rcases lookup_cases e fs nm with ⟨hs, -⟩ | ⟨ino, f, hres, -, hfile, hl, -⟩
  · exact h.same hs (by rw [hvol]; exact h.kempt) (fun i hi => by rw [hvol]; exact hi)
  · have hi := h.kempt.filed.resolve_allocated h.kempt.filed.root.1 hres
    exact h.pushed hl.pushed (by rw [hvol]; exact h.kempt) (fun i hi => by rw [hvol]; exact hi)
      (by rw [hvol, hl.inode]; exact ⟨hi, hfile⟩)

theorem Kept.trans (h : fs.Kept fs1) (hc : fs1.count = fs.count) (h' : fs1.Kept fs2) : fs.Kept fs2 where
  count := by rw [← hc]; exact h'.count
  files k hk := (h'.files k (by rw [hc]; exact hk)).trans (h.files k hk)
  bufs k hk := by
    have hb := h'.bufs k (by rw [hc]; exact hk)
    rw [h.files k hk] at hb
    rw [hb, h.bufs k hk]
  loaded k h1 h2 := h'.loaded k (by rw [hc]; exact h1) h2
  pool := h.pool.trans h'.pool

/-- `noxfs_creat` gets as far as entering the name in the root directory. -/
def CreatEnters (fs : Fs) (e : Heap) (nm : Name) : Prop :=
  fs.count < noxfsMaxFiles ∧ (fs.lookup (e.sub 0) nm).2 = none ∧ fs.vol.sb.freeInodes ≠ 0 ∧
    fs.vol.EntryRoom (e.sub 1) fs.vol.sb.rootIno

theorem Tabled.mapped (h : fs.Tabled) {j : Nat} (hj : fs.vol.IsFileAt j ∨ fs.vol.IsDirAt j) :
    fs.vol.Allocated j ∧ fs.vol.Mapped j := by
  rcases hj with hj | hj
  · exact ⟨hj.1, (h.kempt.files j hj.1 hj.2).2⟩
  · exact ⟨hj.1, (h.kempt.filed.dirs j hj).mapped⟩

/-- **What `noxfs_creat` does**: without a new name it leaves every file as it was; a new name makes the root directory one
record longer, whether or not there is memory for the buffer of the file. -/
theorem Tabled.creat_cases (h : fs.Tabled) (e : Heap) (nm : Name) :
    let r := fs.creat e nm
    (¬ fs.CreatEnters e nm ∧ r.2 =
      none ∧ fs.Kept r.1 ∧ ∀ j, fs.vol.IsFileAt j ∨ fs.vol.IsDirAt j → SameContent fs.vol r.1.vol j) ∨
    (fs.CreatEnters e nm ∧ (r.2 = none ↔
      e.ok [2] = false) ∧ (r.1.vol.inode fs.vol.sb.rootIno).size = (fs.vol.inode fs.vol.sb.rootIno).size + 32) := by
  have hroot := h.kempt.filed.root
  have hiff := creatAt_none_iff (e.sub 1) h.kempt.filed hroot nm
  unfold creat
  by_cases hfull : noxfsMaxFiles ≤ fs.count
  · rw [if_pos hfull]
    exact .inl ⟨fun hx => absurd hx.1 (by omega), rfl, Kept.refl fs, fun j _ => SameContent.refl _ j⟩
  rw [if_neg hfull]
  have hkept := h.lookup_kept (e.sub 0) nm
  have hvol := lookup_vol (e.sub 0) fs nm
  have hcases := lookup_cases (e.sub 0) fs nm
  unfold CreatEnters
  generalize fs.lookup (e.sub 0) nm = l at hvol hcases hkept ⊢
  obtain ⟨fs1, o⟩ := l
  cases o with
  | some k =>
    refine .inl ⟨fun hx => (by cases hx.2.1), rfl, hkept, fun j _ => ?_⟩
    dsimp only at hvol ⊢
    rw [hvol]
    exact SameContent.refl _ j
  | none =>
    obtain ⟨hsame, -⟩ : fs.Same fs1 ∧ _ := hcases.resolve_right (by rintro ⟨ino, f, -, -, -, -, hx⟩; cases hx)
    dsimp only at hvol hsame hkept ⊢
    rw [hvol]
    cases hc : fs.vol.creatAt (e.sub 1) fs.vol.sb.rootIno nm with
    | mk v o =>
      rw [hc] at hiff
      cases o with
      | none =>
        have hfail : ∀ j, fs.vol.Allocated j → fs.vol.Mapped j → SameContent fs.vol v j := fun j hj hm => by
          have hsc := creatAt_failed (e.sub 1) h.kempt.filed hroot nm (by rw [hc]) hj hm
          rw [hc] at hsc
          exact hsc
        refine .inl ⟨fun hx => hiff.1 rfl hx.2.2, rfl, ⟨hkept.count, hkept.files, hkept.bufs, fun k h1 h2 => ?_,
          ⟨hkept.pool.files, hkept.pool.bufs⟩⟩, fun j hj => hfail j (h.mapped hj).1 (h.mapped hj).2⟩
        exact absurd h2 (by dsimp only; rw [hsame.count]; omega)
      | some ino =>
        have hsize := creatAt_size (e.sub 1) h.kempt.filed hroot nm (by rw [hc]; exact some_ne_none ino)
        rw [hc] at hsize
        have hent : fs.vol.sb.freeInodes ≠ 0 ∧ fs.vol.EntryRoom (e.sub 1) fs.vol.sb.rootIno := by
          by_contra hno
          cases hiff.2 hno
        refine .inr ⟨⟨by omega, rfl, hent⟩, ?_⟩
        dsimp only
        cases hk : e.kmalloc 2 with
        | none =>
          refine ⟨⟨fun _ => ?_, fun _ => rfl⟩, hsize⟩
          unfold Heap.kmalloc at hk
          split at hk
          · cases hk
          · rename_i hno
            exact eq_false_of_not_eq_true hno
        | some junk =>
          refine ⟨⟨fun hx => (by cases hx), fun hno => ?_⟩, hsize⟩
          unfold Heap.kmalloc at hk
          rw [if_neg (by rw [hno]; decide)] at hk
          cases hk

end Fs

namespace Files

variable {s : Files} {e : Env} {p flags : Nat} {path : List UInt8}

/-! ## What a lookup of `sys_open` leaves -/

def Held (s : Files) (i : Nat) : Prop := ∃ q, (s.fd.fds q).kind = .file (.proc i)

/-- **No file and no descriptor has changed**: files and directories on disk, so that nothing was created or removed, the
entries of the table, the file of every new entry, and the objects of procfs that are open. -/
structure Untouched (s t : Files) : Prop where
  fds : t.fd = s.fd
  disk : ∀ j, s.fs.vol.IsFileAt j ∨ s.fs.vol.IsDirAt j → SameContent s.fs.vol t.fs.vol j
  count : s.fs.count ≤ t.fs.count
  table : ∀ k < s.fs.count, (t.fs.files k).inode = (s.fs.files k).inode ∧ t.fs.content k = s.fs.content k
  loaded : ∀ k, s.fs.count ≤ k → k < t.fs.count → t.fs.Agrees k
  pool : ∀ i < 8, s.Held i → t.fs.content (FileRef.slot (.proc i)) = s.fs.content (FileRef.slot (.proc i))

end Files
end Noxis
