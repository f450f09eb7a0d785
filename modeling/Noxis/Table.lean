import Noxis.Opened
/-!
# Table — what the calls do to the file table

A lookup or a creation leaves the entries of the table as they are (`Fs.Same`) or adds one in a buffer of its own
(`Fs.Pushed`).  `Fs.Tabled` is what they keep: every entry is of an allocated regular file and has a buffer to itself.  The
volume underneath is `Vol.Kempt`: filed, and its regular files have all their blocks.
-/
namespace Noxis

open Function FdSys

namespace Fs

variable {fs fs1 fs2 : Fs} {e : Heap} {ino k : Nat} {f : VfsFile} {nm : List UInt8}

/-- The entries of the table and their buffers are the same; the static buffers of procfs, 1 to 8, do not count. -/
structure Same (fs fs1 : Fs) : Prop where
  count : fs1.count = fs.count
  files : ∀ k < fs.count, fs1.files k = fs.files k
  next : fs1.next = fs.next
  bufs : ∀ p, 8 < p → fs1.bufs p = fs.bufs p

structure Pushed (fs fs1 : Fs) (f : VfsFile) : Prop where
  count : fs1.count = fs.count + 1
  files : ∀ k < fs.count, fs1.files k = fs.files k
  new : fs1.files fs.count = f
  data : f.data = fs.next
  next : fs1.next = fs.next + 1
  bufs : ∀ p, 8 < p → p ≠ fs.next → fs1.bufs p = fs.bufs p
  room : fs.count < noxfsMaxFiles

theorem Same.refl (fs : Fs) : fs.Same fs := ⟨rfl, fun _ _ => rfl, rfl, fun _ _ => rfl⟩

theorem Same.setNext (fs : Fs) (f : VfsFile) : fs.Same (fs.setFile fs.count f) :=
  ⟨rfl, fun _ hk => update_of_ne (ne_of_lt hk) _ _, rfl, fun _ _ => rfl⟩

theorem Same.trans (h : fs.Same fs1) (h' : fs1.Same fs2) : fs.Same fs2 :=
  ⟨h'.count.trans h.count, fun k hk => (h'.files k (by rw [h.count]; exact hk)).trans (h.files k hk), h'.next.trans h.next,
    fun p hp => (h'.bufs p hp).trans (h.bufs p hp)⟩

theorem Same.pushed (h : fs.Same fs1) (h' : fs1.Pushed fs2 f) : fs.Pushed fs2 f where
  count := by rw [h'.count, h.count]
  files k hk := (h'.files k (by rw [h.count]; exact hk)).trans (h.files k hk)
  new := by rw [← h.count]; exact h'.new
  data := h'.data.trans h.next
  next := by rw [h'.next, h.next]
  bufs p h8 hp := (h'.bufs p h8 (by rw [h.next]; exact hp)).trans (h.bufs p h8)
  room := by rw [← h.count]; exact h'.room

theorem Pushed.push (fs : Fs) {f : VfsFile} (len : Nat) (bytes : Nat → UInt8) (hdata : f.data = fs.next)
    (hroom : fs.count < noxfsMaxFiles) : fs.Pushed { (fs.newBuf len bytes).setFile fs.count f with count := fs.count + 1 } f :=
  ⟨rfl, fun _ hk => update_of_ne (ne_of_lt hk) _ _, update_self .., hdata, rfl, fun _ _ hp => update_of_ne hp _ _, hroom⟩

structure Loads (e : Heap) (fs fs1 : Fs) (ino : Nat) (f : VfsFile) : Prop where
  pushed : fs.Pushed fs1 f
  inode : f.inode = ino
  load : fs.vol.loadData e ino = some (f.size, some (fs1.bufs fs.next).bytes)

/-- **`_dir_scan` and `noxfs_lookup` of a file**: the table as it was, or one more entry, loaded from disk. -/
theorem cacheFile_cases (e : Heap) (fs : Fs) (nm : Name) (ino : Nat) (hroom : fs.count < noxfsMaxFiles) :
    let w := fs.cacheFile e nm ino
    (w.2 = false ∧ fs.Same w.1) ∨ (w.2 = true ∧ ∃ f, Loads e fs w.1 ino f) := by
  unfold cacheFile
  dsimp only
  have h1 := Same.setNext fs { fs.files fs.count with name := putName (fs.files fs.count).name nm }
  generalize hfs1 : fs.setFile fs.count { fs.files fs.count with name := putName (fs.files fs.count).name nm } = fs1 at *
  have hvol : fs1.vol = fs.vol := by subst hfs1; rfl
  unfold loadSlot
  rw [hvol]
  cases hload : fs.vol.loadData e ino with
  | none =>
    refine .inl ⟨rfl, h1.trans ?_⟩
    rw [← h1.count]
    exact Same.setNext fs1 _
  | some r =>
    obtain ⟨size, o⟩ := r
    cases o with
    | none =>
      refine .inl ⟨rfl, h1.trans ?_⟩
      rw [← h1.count]
      exact Same.setNext fs1 _
    | some bytes =>
      dsimp only
      by_cases h0 : loadBytes size = 0
      · simp only [if_pos h0, Bool.false_eq_true, if_false]
        refine .inl ⟨trivial, h1.trans ?_⟩
        rw [← h1.count]
        exact Same.setNext fs1 _
      simp only [if_neg h0, if_true]
      refine .inr ⟨trivial, ?_⟩
      rw [← h1.count]
      rw [setFile_setFile]
      refine ⟨_, h1.pushed (Pushed.push fs1 _ _ ?_ (by rw [h1.count]; exact hroom)), rfl, ?_⟩
      · simp only [setFile, update_self]
      · rw [hload, ← h1.next]
        simp only [setFile, newBuf, update_self]

theorem cached_some (h : fs.cached nm = some k) : k < fs.count ∧ (fs.files k).cname = nm := by
  unfold cached at h
  exact ⟨List.mem_range.1 (List.mem_of_find?_eq_some h), by simpa using List.find?_some h⟩

/-- **`noxfs_lookup`**: an entry of the table, nothing, or a regular file of the volume in a new entry. -/
theorem lookup_cases (e : Heap) (fs : Fs) (nm : List UInt8) :
    (fs.Same (fs.lookup e nm).1 ∧ ∀ k, (fs.lookup e nm).2 = some k → fs.cached nm = some k) ∨
    ∃ ino f, fs.vol.resolve (e.sub 0) fs.vol.sb.rootIno nm = some ino ∧ ino ≠ fs.vol.sb.rootIno ∧
      (fs.vol.inode ino).isFile = true ∧ Loads (e.sub 1) fs (fs.lookup e nm).1 ino f ∧ (fs.lookup e nm).2 = some fs.count := by
  unfold lookup
  cases hc : fs.cached nm with
  | some k => exact .inl ⟨Same.refl fs, fun j hj => hj⟩
  | none =>
    dsimp only
    cases hr : fs.vol.resolve (e.sub 0) fs.vol.sb.rootIno nm with
    | none => exact .inl ⟨Same.refl fs, fun j hj => by cases hj⟩
    | some ino =>
      dsimp only
      by_cases hroot : ino = fs.vol.sb.rootIno
      · rw [if_pos hroot]
        exact .inl ⟨Same.refl fs, fun j hj => by cases hj⟩
      rw [if_neg hroot]
      cases hi : fs.vol.iread ino with
      | none => exact .inl ⟨Same.refl fs, fun j hj => by cases hj⟩
      | some n =>
        have hn : n = fs.vol.inode ino := by
          unfold Vol.iread at hi
          split at hi
          · cases hi
          · exact (Option.some.inj hi).symm
        subst hn
        dsimp only
        by_cases hfile : (fs.vol.inode ino).isFile = false
        · rw [if_pos hfile]
          exact .inl ⟨Same.refl fs, fun j hj => by cases hj⟩
        rw [if_neg hfile]
        by_cases hfull : noxfsMaxFiles ≤ fs.count
        · rw [if_pos hfull]
          exact .inl ⟨Same.refl fs, fun j hj => by cases hj⟩
        rw [if_neg hfull]
        rcases cacheFile_cases (e.sub 1) fs ((baseName nm).take 31) ino (not_le.1 hfull) with ⟨hb, hs⟩ | ⟨hb, f, hf⟩
        · rw [hb]
          exact .inl ⟨hs, fun j hj => by cases hj⟩
        · rw [hb]
          exact .inr ⟨ino, f, rfl, hroot, by simpa using hfile, hf, rfl⟩

/-- **`noxfs_creat`**: refused by what the table has, not carried through, or a new empty file in a new entry. -/
theorem creat_cases (e : Heap) (fs : Fs) (nm : Name) : let r := fs.creat e nm
    (r.2 = none ∧ (r.1 = fs ∨ r.1 = (fs.lookup (e.sub 0) nm).1)) ∨
    (r.2 = none ∧ fs.Same r.1 ∧ r.1.vol = (fs.vol.creatAt (e.sub 1) fs.vol.sb.rootIno nm).1) ∨
    ∃ v ino f, fs.vol.creatAt (e.sub 1) fs.vol.sb.rootIno nm = (v, some ino) ∧ fs.Pushed r.1 f ∧ f.inode = ino ∧ f.size = 0 ∧
      r.1.vol = v ∧ r.2 = some fs.count := by
  unfold creat
  by_cases hfull : noxfsMaxFiles ≤ fs.count
  · rw [if_pos hfull]
    exact .inl ⟨rfl, .inl rfl⟩
  rw [if_neg hfull]
  have hvol := lookup_vol (e.sub 0) fs nm
  have hcases := lookup_cases (e.sub 0) fs nm
  generalize hl : fs.lookup (e.sub 0) nm = l at hvol hcases
  obtain ⟨fs1, o⟩ := l
  cases o with
  | some k => exact .inl ⟨rfl, .inr rfl⟩
  | none =>
    rcases hcases with ⟨hsame, -⟩ | ⟨ino, f, -, -, -, -, hx⟩
    · dsimp only at hvol hsame ⊢
      rw [hvol]
      cases hc : fs.vol.creatAt (e.sub 1) fs.vol.sb.rootIno nm with
      | mk v o =>
        cases o with
        | none => exact .inr (.inl ⟨rfl, ⟨hsame.count, hsame.files, hsame.next, hsame.bufs⟩, rfl⟩)
        | some ino =>
          dsimp only
          have hroom : fs1.count < noxfsMaxFiles := by rw [hsame.count]; omega
          have hnamed : fs.Same ({ fs1 with vol := v }.setFile fs1.count
              { fs1.files fs1.count with name := pokeName (fs1.files fs1.count).name nm }) :=
            hsame.trans ⟨rfl, fun k hk => update_of_ne (ne_of_lt hk) _ _, rfl, fun _ _ => rfl⟩
          cases hk : e.kmalloc 2 with
          | none =>
            refine .inr (.inl ⟨rfl, hnamed.trans ?_, rfl⟩)
            exact Same.setNext ({ fs1 with vol := v }.setFile fs1.count
              { fs1.files fs1.count with name := pokeName (fs1.files fs1.count).name nm }) _
          | some junk =>
            refine .inr (.inr ⟨v, ino, _, rfl, hnamed.pushed (Pushed.push _ 512 _ ?_ hroom), rfl, rfl, rfl, ?_⟩)
            · rfl
            · rw [hsame.count]
    · cases hx

end Fs

/-! ## The volume -/

structure Vol.Kempt (v : Vol) : Prop where
  filed : v.Filed
  files : ∀ i, v.Allocated i → (v.inode i).isFile = true → (v.inode i).isDir = false ∧ v.Mapped i

section
variable {v w : Vol} {e : Heap} {i ino parent : Nat}

theorem isFile_congr {n n' : Inode} (h : n'.mode = n.mode) : n'.isFile = n.isFile := by
  unfold Inode.isFile
  rw [h]

variable {data : Nat → UInt8} {size : Nat} {r : Vol × Status}

theorem Vol.Filed.store (h : v.Filed) (hst : StoreSpec v i data size r) (hnd : (v.inode i).isDir = false) : r.1.Filed := by
  have hdir : ∀ j, r.1.IsDirAt j → v.IsDirAt j ∧ j ≠ i := by
    intro j hj
    have hj' := (hst.allocated j).1 hj.1
    have hd := hj.2
    rw [hst.isDir hj'.1] at hd
    exact ⟨⟨hj', hd⟩, fun hji => absurd (hji ▸ hd) (by rw [hnd]; decide)⟩
  refine ⟨hst.sound, ?_, (hst.allocated 0).2 h.zero, fun j hj => ?_, fun j hj x hx h0 => ?_⟩
  · rw [hst.rootIno]
    exact ⟨(hst.allocated _).2 h.root.1, by rw [hst.isDir h.root.1.1]; exact h.root.2⟩
  · obtain ⟨hj', hne⟩ := hdir j hj
    exact (hst.others j hj'.1 hne).dirOk (h.dirs j hj')
  · obtain ⟨hj', hne⟩ := hdir j hj
    rw [(hst.others j hj'.1 hne).entries_eq (h.dirs j hj')] at hx
    exact (hst.allocated _).2 (h.live j hj' x hx h0)

theorem Vol.Kempt.store (h : v.Kempt) (hi : v.Allocated i)
    (hfile : (v.inode i).isFile = true) (hst : StoreSpec v i data size r) (hok : r.2 = .ok) (hs : size + 511 < 2 ^ 32) :
    r.1.Kempt := by
  refine ⟨h.filed.store hst (h.files i hi hfile).1, fun j hj hf => ?_⟩
  have hj' := (hst.allocated j).1 hj
  rw [hst.isDir hj'.1]
  by_cases hji : j = i
  · subst hji
    exact ⟨(h.files j hj' hfile).1, hst.mapped hok hs⟩
  · have hsame := hst.others j hj' hji
    rw [hsame.inode] at hf
    exact ⟨(h.files j hj' hf).1, hsame.mapped (h.files j hj' hf).2⟩

theorem Vol.Kempt.took (h : v.Kempt) (ht : v.TookInode w ino modeFile) : w.Kempt := by
  have hs := ht.sprung h.filed.sound
  refine ⟨h.filed.took ht, fun j hj hf => ?_⟩
  rcases (hs.allocated j).1 hj with hj' | rfl
  · have hsame := hs.same j hj'
    rw [hsame.inode] at hf ⊢
    exact ⟨(h.files j hj' hf).1, hsame.mapped (h.files j hj' hf).2⟩
  · exact ⟨ht.not_isDir, fun l hl => absurd hl (by rw [ht.size_eq]; omega)⟩

theorem Vol.Kempt.add {ent : Dirent} (h : v.Kempt) (hp : v.IsDirAt parent) (ha : AddSpec v parent ent r)
    (hent : v.Allocated ent.inode) : r.1.Kempt := by
  refine ⟨h.filed.add ha hent, fun j hj hf => ?_⟩
  have hj' := (ha.allocated j).1 hj
  obtain ⟨data, size, hst⟩ := ha.store
  by_cases hjp : j = parent
  · subst hjp
    rw [isFile_congr hst.mode] at hf
    exact absurd hp.2 (by rw [(h.files j hj' hf).1]; decide)
  · have hsame := ha.same hj' hjp
    rw [hsame.inode] at hf ⊢
    exact ⟨(h.files j hj' hf).1, hsame.mapped (h.files j hj' hf).2⟩

theorem Vol.Kempt.creatAt (h : v.Kempt) (he : e.Ok) (hp : v.IsDirAt parent) (nm : Name) : (v.creatAt e parent nm).1.Kempt := by
  rcases creatAt_cases (e := e) h.filed.sound parent nm with ⟨-, hr⟩ | ⟨v1, ino, ht, hr⟩
  · rw [hr]
    exact h
  · have hs := ht.sprung h.filed.sound
    have hi : v1.Allocated ino := (hs.allocated ino).2 (.inr rfl)
    rw [hr, enteredAs_vol]
    exact (h.took ht).add (hs.keeps_dir hp) ((h.took ht).filed.addSpec he (hs.keeps_dir hp) hi nm (by decide)) hi

theorem creatAt_same (h : v.Filed) (he : e.Ok) (hp : v.IsDirAt parent) (nm : Name) {j : Nat} (hj : v.Allocated j) (hne : j ≠ parent) :
    SameFile v (v.creatAt e parent nm).1 j ∧ (v.creatAt e parent nm).1.Allocated j := by
  rcases creatAt_cases (e := e) h.sound parent nm with ⟨-, hr⟩ | ⟨v1, ino, ht, hr⟩
  · rw [hr]
    exact ⟨⟨rfl, rfl, fun _ _ => rfl⟩, hj⟩
  have hs := ht.sprung h.sound
  have hi : v1.Allocated ino := (hs.allocated ino).2 (.inr rfl)
  have hadd := (h.took ht).addSpec he (hs.keeps_dir hp) hi nm (by decide : ftFile < 256)
  have hj1 : v1.Allocated j := (hs.allocated j).2 (.inl hj)
  rw [hr, enteredAs_vol]
  exact ⟨(hs.same j hj).trans (hadd.same hj1 hne), (hadd.allocated j).2 hj1⟩

def Vol.IsFileAt (v : Vol) (i : Nat) : Prop := v.Allocated i ∧ (v.inode i).isFile = true

theorem Vol.Kempt.ne_dir (h : v.Kempt) (hi : v.IsFileAt i) (hd : v.IsDirAt parent) : i ≠ parent := by
  rintro rfl
  exact absurd hd.2 (by rw [(h.files i hi.1 hi.2).1]; decide)

theorem Vol.Kempt.creatAt_keeps (h : v.Kempt) (he : e.Ok) (hp : v.IsDirAt parent) (nm : Name) (hi : v.IsFileAt i) :
    SameFile v (v.creatAt e parent nm).1 i ∧ (v.creatAt e parent nm).1.IsFileAt i := by
  obtain ⟨hsame, halloc⟩ := creatAt_same h.filed he hp nm hi.1 (h.ne_dir hi hp)
  exact ⟨hsame, halloc, by rw [hsame.inode]; exact hi.2⟩

theorem StoreSpec.isFileAt (hst : StoreSpec v ino data size r) (hi : v.IsFileAt i) : r.1.IsFileAt i := by
  refine ⟨(hst.allocated i).2 hi.1, ?_⟩
  by_cases hne : i = ino
  · subst hne
    rw [isFile_congr hst.mode]
    exact hi.2
  · rw [hst.inodes i hi.1.1 hne]
    exact hi.2

end

/-! ## The table -/

namespace Fs

variable {fs fs1 : Fs} {e : Heap} {ino k : Nat} {f : VfsFile}

/-- Every entry of the table is of a regular file, and has a buffer of its own. -/
structure Tabled (fs : Fs) : Prop where
  kempt : fs.vol.Kempt
  count : fs.count ≤ noxfsMaxFiles
  files : ∀ k < fs.count, fs.vol.IsFileAt (fs.files k).inode
  old : ∀ k < fs.count, 8 < (fs.files k).data ∧ (fs.files k).data < fs.next
  apart : ∀ j < fs.count, ∀ k < fs.count, (fs.files j).data = (fs.files k).data → j = k
  next : 8 < fs.next

theorem Tabled.same (h : fs.Tabled) (hs : fs.Same fs1) (hv : fs1.vol.Kempt)
    (hkeep : ∀ i, fs.vol.IsFileAt i → fs1.vol.IsFileAt i) : fs1.Tabled where
  kempt := hv
  count := by rw [hs.count]; exact h.count
  files k hk := by
    rw [hs.count] at hk
    rw [hs.files k hk]
    exact hkeep _ (h.files k hk)
  old k hk := by
    rw [hs.count] at hk
    rw [hs.files k hk, hs.next]
    exact h.old k hk
  apart j hj k hk := by
    rw [hs.count] at hj hk
    rw [hs.files j hj, hs.files k hk]
    exact h.apart j hj k hk
  next := by rw [hs.next]; exact h.next

theorem Tabled.pushed (h : fs.Tabled) (hp : fs.Pushed fs1 f) (hv : fs1.vol.Kempt)
    (hkeep : ∀ i, fs.vol.IsFileAt i → fs1.vol.IsFileAt i) (hf : fs1.vol.IsFileAt f.inode) : fs1.Tabled := by
  have hcases : ∀ k < fs1.count, (k < fs.count ∧ fs1.files k = fs.files k) ∨ (k = fs.count ∧ fs1.files k = f) := by
    intro k hk
    rw [hp.count] at hk
    by_cases hlt : k < fs.count
    · exact .inl ⟨hlt, hp.files k hlt⟩
    · obtain rfl : k = fs.count := by omega
      exact .inr ⟨rfl, hp.new⟩
  have hnext := h.next
  refine ⟨hv, by rw [hp.count]; exact hp.room, fun k hk => ?_, fun k hk => ?_, fun j hj k hk heq => ?_, by rw [hp.next]; omega⟩
  · rcases hcases k hk with ⟨hlt, hk'⟩ | ⟨-, hk'⟩
    · rw [hk']
      exact hkeep _ (h.files k hlt)
    · rw [hk']
      exact hf
  · rcases hcases k hk with ⟨hlt, hk'⟩ | ⟨-, hk'⟩
    · rw [hk', hp.next]
      have := h.old k hlt
      omega
    · rw [hk', hp.next, hp.data]
      omega
  · rcases hcases j hj with ⟨hj', hfj⟩ | ⟨rfl, hfj⟩ <;> rcases hcases k hk with ⟨hk', hfk⟩ | ⟨rfl, hfk⟩
    · rw [hfj, hfk] at heq
      exact h.apart j hj' k hk' heq
    · rw [hfj, hfk, hp.data] at heq
      have := (h.old j hj').2
      omega
    · rw [hfj, hfk, hp.data] at heq
      have := (h.old k hk').2
      omega
    · rfl

theorem Tabled.poked {offset : Nat} {data : List UInt8} {r : Fs × Option Nat} (h : fs.Tabled) (hk : k < fs.count)
    (hp : Poked fs k offset data r) (hv : r.1.vol.Kempt) (hkeep : ∀ i, fs.vol.IsFileAt i → r.1.vol.IsFileAt i) : r.1.Tabled := by
  have hnext := h.next
  have hold := h.old k hk
  -- the pointer of the entry is the old one or the next one
  have hother : ∀ j < fs.count, j ≠ k → (fs.files j).data ≠ (r.1.files k).data := by
    intro j hj hne heq
    rcases hp.ptr with ⟨hd, -⟩ | ⟨hd, -⟩
    · exact hne (h.apart j hj k hk (heq.trans hd))
    · have := (h.old j hj).2
      omega
  refine ⟨hv, by rw [hp.count]; exact h.count, fun j hj => ?_, fun j hj => ?_, fun i hi j hj heq => ?_, ?_⟩
  · rw [hp.count] at hj
    by_cases hjk : j = k
    · rw [hjk, hp.inode]
      exact hkeep _ (h.files k hk)
    · rw [hp.others j hjk]
      exact hkeep _ (h.files j hj)
  · rw [hp.count] at hj
    have hj' := h.old j hj
    by_cases hjk : j = k
    · rw [hjk]
      rcases hp.ptr with ⟨hd, hn⟩ | ⟨hd, hn⟩ <;> rw [hd, hn] <;> omega
    · rw [hp.others j hjk]
      rcases hp.ptr with ⟨-, hn⟩ | ⟨-, hn⟩ <;> rw [hn] <;> omega
  · rw [hp.count] at hi hj
    by_cases hik : i = k <;> by_cases hjk : j = k
    · rw [hik, hjk]
    · rw [hik, hp.others j hjk] at heq
      exact absurd heq.symm (hother j hj hjk)
    · rw [hjk, hp.others i hik] at heq
      exact absurd heq (hother i hi hik)
    · rw [hp.others i hik, hp.others j hjk] at heq
      exact h.apart i hi j hj heq
  · rcases hp.ptr with ⟨-, hn⟩ | ⟨-, hn⟩ <;> rw [hn] <;> omega

end Fs
/-! ## The calls -/

/-- The files that descriptors of `t` stand for are files that descriptors of `s` stand for. -/
def FdSys.Keeps (s t : FdSys) : Prop := ∀ q f, (t.fds q).kind = .file f → ∃ q', (s.fds q').kind = .file f

variable {s : FdSys}

theorem FdSys.Copies.keeps {t : FdSys} (h : FdSys.Copies s t) : FdSys.Keeps s t := fun q f hf => by
  obtain ⟨q', hq'⟩ := h q f hf
  exact ⟨q', by rw [hq']; exact hf⟩

theorem FdSys.Keeps.seek (s : FdSys) (p n offset : Nat) : FdSys.Keeps s (s.setFd p n { s.fds (p, n) with offset := offset }) := by
  intro q f hf
  by_cases hq : q = (p, n)
  · subst hq
    simp only [setFd, update_self] at hf
    exact ⟨_, hf⟩
  · simp only [setFd, update_of_ne hq] at hf
    exact ⟨q, hf⟩

theorem FdSys.Keeps.refl (s : FdSys) : FdSys.Keeps s s := fun q _ hf => ⟨q, hf⟩

theorem FdSys.sysOpen_kind {p : Nat} {x : Found} {q : Nat × Nat} {f : FileRef}
    (h : (((s.sysOpen p (some x)).1).fds q).kind = .file f) : (s.fds q).kind = .file f ∨ x = .file f := by
  unfold sysOpen at h
  dsimp only at h
  split at h
  · exact .inl h
  rename_i n hn
  by_cases hq : q = (p, n)
  · subst hq
    simp only [setFd, update_self] at h
    cases x with
    | file g => exact .inr (by rw [Found.kind, FdKind.file.injEq] at h; rw [h])
    | _ => cases h
  · simp only [setFd, update_of_ne hq] at h
    exact .inl h

namespace Files

variable {s : Files} {p : Nat}

def Call.quiet : Call → Bool
  | .openFile _ _ => false
  | .write _ _ => false
  | .unlink _ => false
  | .rename _ _ => false
  | _ => true

structure Quiet (s t : Files) : Prop where
  fs : t.fs = s.fs
  poolNext : t.poolNext = s.poolNext
  keeps : FdSys.Keeps s.fd t.fd

theorem Quiet.refl (s : Files) : Quiet s s := ⟨rfl, rfl, FdSys.Keeps.refl s.fd⟩

theorem sysRead_quiet (s : Files) (p : Nat) (fd : Int) (len : Nat) : Quiet s (s.sysRead p fd len).1 := by
  unfold sysRead
  split
  · exact Quiet.refl s
  · split
    · exact ⟨rfl, rfl, FdSys.Keeps.seek s.fd p _ _⟩
    · exact Quiet.refl s

theorem sysLseek_quiet (s : Files) (p : Nat) (fd off whence : Int) : Quiet s (s.sysLseek p fd off whence).1 := by
  unfold sysLseek
  split
  · exact Quiet.refl s
  split
  · dsimp only
    split
    · exact Quiet.refl s
    · exact ⟨rfl, rfl, FdSys.Keeps.seek s.fd p _ _⟩
  · exact Quiet.refl s

theorem call_quiet (e : Env) (s : Files) (p : Nat) {c : Call} (hc : c.quiet = true) : Quiet s (s.call e p c).1 := by
  cases c with
  | read fd len => exact sysRead_quiet s p fd len
  | lseek fd off whence => exact sysLseek_quiet s p fd off whence
  | dup fd => exact ⟨rfl, rfl, (FdSys.Copies.dup s.fd p fd).keeps⟩
  | dup2 a b => exact ⟨rfl, rfl, (FdSys.Copies.dup2 s.fd p a b).keeps⟩
  | close fd => exact ⟨rfl, rfl, (FdSys.Copies.close s.fd p fd).keeps⟩
  | fork ok => exact ⟨rfl, rfl, (FdSys.Copies.fork s.fd p ok).keeps⟩
  | exit => exact ⟨rfl, rfl, (FdSys.Copies.exit s.fd p).keeps⟩
  | _ => cases hc

/-- **`sys_write`**: nothing, or `noxfs_write` to the file of a descriptor. -/
theorem sysWrite_cases (h : Heap) (s : Files) (p : Nat) (fd : Int) (data : List UInt8) :
    let u := s.sysWrite h p fd data
    u.1 = s ∨ ∃ n f, s.target p fd 1 = some n ∧ (s.fd.fds (p, n)).kind = .file f ∧
    let w := s.fs.write h f.slot (s.fd.fds (p, n)).offset (data.take (data.length % 2 ^ 32))
    u.1.fs = w.1 ∧ u.1.poolNext = s.poolNext ∧ FdSys.Keeps s.fd u.1.fd ∧ (w.2 = none → u.2 = .num (-1)) := by
  cases ht : s.target p fd 1 with
  | none =>
    refine .inl ?_
    unfold sysWrite
    rw [ht]
  | some n =>
    cases hk : (s.fd.fds (p, n)).kind with
    | file f =>
      refine .inr ⟨n, f, rfl, hk, ?_⟩
      rw [sysWrite_file ht hk rfl]
      generalize s.fs.write h f.slot (s.fd.fds (p, n)).offset (data.take (data.length % 2 ^ 32)) = r
      cases hr : r.2 with
      | none => exact ⟨rfl, rfl, FdSys.Keeps.refl s.fd, fun _ => rfl⟩
      | some w =>
        refine ⟨rfl, rfl, ?_, fun hx => by rw [hr] at hx; cases hx⟩
        dsimp only
        split
        · rw [← hk]
          exact FdSys.Keeps.seek s.fd p n _
        · exact FdSys.Keeps.refl s.fd
    | _ =>
      refine .inl ?_
      unfold sysWrite
      rw [ht]
      simp only [hk]

end Files
end Noxis
