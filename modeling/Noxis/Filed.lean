import Noxis.Create
/-!
# Filed — a sound volume whose directories are in order

`Vol.Filed` adds the directories to the structural invariant: every directory is made of whole records, and every live record
names an allocated inode.  It holds after `noxfs_creat_at` and `noxfs_mkdir`, whether they succeed or not.
-/
namespace Noxis

open List Option Inode Vol

def Vol.IsDirAt (v : Vol) (i : Nat) : Prop := v.Allocated i ∧ (v.inode i).isDir = true

structure Vol.Filed (v : Vol) : Prop where
  sound : v.Sound
  root : v.IsDirAt v.sb.rootIno
  zero : v.Allocated 0
  dirs : ∀ i, v.IsDirAt i → v.DirOk i
  live : ∀ i, v.IsDirAt i → ∀ r ∈ v.entries i, r.inode ≠ 0 → v.Allocated r.inode

section
variable {v w : Vol} {e : Heap} {i ino parent : Nat}

theorem Vol.Allocated.lt (h : v.Sound) (hi : v.Allocated i) : i < 2 ^ 32 - 1 := by
  have := h.layout.inodes
  have := hi.1
  omega

theorem named_some {nm : Name} (h : v.named i nm = some ino) : ∃ r ∈ v.entries i, r.hit nm = true ∧ r.inode = ino := by
  unfold named at h
  obtain ⟨r, hr, rfl⟩ := map_eq_some_iff.1 h
  exact ⟨r, mem_of_find?_eq_some hr, find?_some hr, rfl⟩

theorem named_none {nm : Name} (h : v.named i nm = none) : ∀ r ∈ v.entries i, r.inode ≠ 0 → r.name ≠ nm := by
  unfold named at h
  intro r hr h0 hnm
  have hmiss := find?_eq_none.1 (map_eq_none_iff.1 h) r hr
  simp [Dirent.hit, h0, hnm] at hmiss

theorem hit_iff {nm : Name} (r : Dirent) : r.hit nm = true ↔ r.inode ≠ 0 ∧ r.name = nm := by
  simp [Dirent.hit]

theorem named_snoc {ent : Dirent} (hw : w.entries i = v.entries i ++ [ent]) (hfree : v.named i ent.name = none)
    (h0 : ent.inode ≠ 0) : w.named i ent.name = some ent.inode := by
  have hhit : ent.hit ent.name = true := (hit_iff ent).2 ⟨h0, rfl⟩
  unfold named
  rw [hw, find?_append, map_eq_none_iff.1 hfree, none_or, find?_cons_of_pos hhit]
  rfl

theorem Vol.Filed.named_allocated (h : v.Filed) (hd : v.IsDirAt i) {nm : Name} (hn : v.named i nm = some ino) :
    v.Allocated ino ∧ ino ≠ 0 := by
  obtain ⟨r, hr, hhit, rfl⟩ := named_some hn
  have h0 := ((hit_iff r).1 hhit).1
  exact ⟨h.live i hd r hr h0, h0⟩

theorem Vol.Filed.dirLookupName (h : v.Filed) (he : e.Ok) (hd : v.IsDirAt i) (nm : Name) :
    v.dirLookupName e i nm = v.named i nm := by
  rw [dirLookupName_eq he hd.1.1 (h.dirs i hd)]
  cases hn : v.named i nm with
  | none => rfl
  | some ino =>
    have hlt := (h.named_allocated hd hn).1.lt h.sound
    rw [filter_some, if_pos]
    simp only [bne_iff_ne]
    omega

/-! ## One more inode -/

theorem Sprung.isDirAt (h : Sprung v w ino) {j : Nat} (hj : w.IsDirAt j) : v.IsDirAt j ∨ j = ino := by
  rcases (h.allocated j).1 hj.1 with hj' | hj'
  · refine .inl ⟨hj', ?_⟩
    rw [← (h.same j hj').inode]
    exact hj.2
  · exact .inr hj'

theorem Sprung.keeps_dir (h : Sprung v w ino) {j : Nat} (hj : v.IsDirAt j) : w.IsDirAt j :=
  ⟨(h.allocated j).2 (.inl hj.1), by rw [(h.same j hj.1).inode]; exact hj.2⟩

theorem Vol.Filed.sprung (h : v.Filed) (hs : Sprung v w ino)
    (hnew : w.IsDirAt ino → w.DirOk ino ∧ ∀ r ∈ w.entries ino, r.inode ≠ 0 → w.Allocated r.inode) : w.Filed where
  sound := hs.sound
  root := by
    rw [hs.sb]
    exact hs.keeps_dir h.root
  zero := (hs.allocated 0).2 (.inl h.zero)
  dirs j hj := by
    rcases hs.isDirAt hj with hj' | rfl
    · exact (hs.same j hj'.1).dirOk (h.dirs j hj')
    · exact (hnew hj).1
  live j hj := by
    rcases hs.isDirAt hj with hj' | rfl
    · rw [(hs.same j hj'.1).entries_eq (h.dirs j hj')]
      exact fun r hr h0 => (hs.allocated r.inode).2 (.inl (h.live j hj' r hr h0))
    · exact (hnew hj).2

theorem Vol.TookInode.mode_eq {mode : Nat} (ht : v.TookInode w ino mode) (hm : mode < 2 ^ 16) : (w.inode ino).mode = mode := by
  rw [ht.inode, if_pos rfl, mode_trunc, new_mode hm]

theorem Vol.TookInode.size_eq {mode : Nat} (ht : v.TookInode w ino mode) : (w.inode ino).size = 0 := by
  rw [ht.inode, if_pos rfl, size_trunc, new_size]

theorem Vol.Filed.took {mode : Nat} (h : v.Filed) (ht : v.TookInode w ino mode) : w.Filed := by
  refine h.sprung (ht.sprung h.sound) (fun hd => ⟨dirOk_of_empty hd.2 ht.size_eq, ?_⟩)
  unfold entries
  rw [ht.size_eq]
  intro r hr
  cases hr

theorem Vol.TookInode.isDir (ht : v.TookInode w ino modeDir) : (w.inode ino).isDir = true := by
  unfold Inode.isDir
  rw [ht.mode_eq (by decide)]
  decide

theorem Vol.TookInode.not_isDir (ht : v.TookInode w ino modeFile) : (w.inode ino).isDir = false := by
  unfold Inode.isDir
  rw [ht.mode_eq (by decide)]
  decide

theorem Vol.Filed.dotted {v1 : Vol} (h : v.Filed) (hp : v.Allocated parent) (ht : v.TookInode v1 ino modeDir)
    (hd : Dotted v1 ino parent w) : w.Filed := by
  have hs := hd.sprung (ht.sprung h.sound)
  refine h.sprung hs (fun _ => ⟨hd.dirOk ht.isDir, ?_⟩)
  rw [hd.entries]
  intro r hr _
  rcases mem_cons.1 hr with rfl | hr
  · exact (hs.allocated _).2 (.inr rfl)
  · rw [mem_singleton.1 hr]
    exact (hs.allocated _).2 (.inl hp)

/-! ## One more record -/

section
variable {ent : Dirent} {r : Vol × Status}

section
variable (h : AddSpec v parent ent r)
include h

theorem AddSpec.allocated (j : Nat) : r.1.Allocated j ↔ v.Allocated j := by
  obtain ⟨data, size, hst⟩ := h.store
  exact hst.allocated j

theorem AddSpec.isDirAt (j : Nat) : r.1.IsDirAt j ↔ v.IsDirAt j := by
  obtain ⟨data, size, hst⟩ := h.store
  unfold Vol.IsDirAt
  rw [hst.allocated j]
  exact and_congr_right fun hj => by rw [hst.isDir hj.1]

theorem AddSpec.same {j : Nat} (hj : v.Allocated j) (hne : j ≠ parent) : SameFile v r.1 j := by
  obtain ⟨data, size, hst⟩ := h.store
  exact hst.others j hj hne

theorem AddSpec.sound : r.1.Sound := by
  obtain ⟨data, size, hst⟩ := h.store
  exact hst.sound

theorem AddSpec.rootIno : r.1.sb.rootIno = v.sb.rootIno := by
  obtain ⟨data, size, hst⟩ := h.store
  exact hst.rootIno

theorem AddSpec.mem_entries {x : Dirent} (hx : x ∈ r.1.entries parent) : x ∈ v.entries parent ∨ x = ent := by
  by_cases hok : r.2 = .ok
  · rw [h.added hok] at hx
    exact (mem_append.1 hx).imp_right mem_singleton.1
  · rw [h.failed hok] at hx
    exact .inl hx

end

theorem Vol.Filed.add (h : v.Filed) (ha : AddSpec v parent ent r) (hent : v.Allocated ent.inode) : r.1.Filed where
  sound := ha.sound
  root := by
    rw [ha.rootIno]
    exact (ha.isDirAt _).2 h.root
  zero := (ha.allocated 0).2 h.zero
  dirs j hj := by
    have hj' := (ha.isDirAt j).1 hj
    by_cases hjp : j = parent
    · subst hjp
      exact ha.dirOk
    · exact (ha.same hj'.1 hjp).dirOk (h.dirs j hj')
  live j hj x hx h0 := by
    have hj' := (ha.isDirAt j).1 hj
    refine (ha.allocated _).2 ?_
    by_cases hjp : j = parent
    · subst hjp
      rcases ha.mem_entries hx with hx | rfl
      · exact h.live j hj' x hx h0
      · exact hent
    · rw [(ha.same hj'.1 hjp).entries_eq (h.dirs j hj')] at hx
      exact h.live j hj' x hx h0

end

section

variable (h : v.Filed) (he : e.Ok) (hp : v.IsDirAt parent)
include h he hp

theorem Vol.Filed.addSpec (hi : v.Allocated ino) (nm : Name) {kind : Nat} (hk : kind < 256) :
    AddSpec v parent ⟨ino, kind, nm.take 23⟩ (v.dirAddEntry e parent nm ino kind) :=
  dirAddEntry_spec he h.sound hp.1 (h.dirs parent hp) nm (by have := hi.lt h.sound; omega) hk

/-! ## `noxfs_creat_at` and `noxfs_mkdir` -/

theorem Vol.Filed.creatAt (nm : Name) : (v.creatAt e parent nm).1.Filed := by
  rcases creatAt_cases (e := e) h.sound parent nm with ⟨-, hr⟩ | ⟨v1, ino, ht, hr⟩
  · rw [hr]
    exact h
  · have hs := ht.sprung h.sound
    have hi : v1.Allocated ino := (hs.allocated ino).2 (.inr rfl)
    rw [hr, enteredAs_vol]
    exact (h.took ht).add ((h.took ht).addSpec he (hs.keeps_dir hp) hi nm (by decide)) hi

theorem Vol.Filed.mkdir (nm : Name) : (v.mkdir e parent nm).1.Filed := by
  have hlt : parent < 2 ^ 32 := by have := hp.1.lt h.sound; omega
  rcases mkdir_cases (e := e) h.sound hlt nm with ⟨-, hr⟩ | ⟨-, -, v1, ino, ht, ⟨-, hr⟩ | ⟨w, hd, hr⟩⟩
  · rw [hr]
    exact h
  · rw [hr]
    exact h.took ht
  · have hw := h.dotted hp.1 ht hd
    have hs := hd.sprung (ht.sprung h.sound)
    have hi : w.Allocated ino := (hs.allocated ino).2 (.inr rfl)
    rw [hr, enteredAs_vol]
    exact hw.add (hw.addSpec (he.sub 1) (hs.keeps_dir hp) hi nm (by decide)) hi

end

end

end Noxis
