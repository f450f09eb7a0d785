import Noxis.Written
import Noxis.Filed
/-!
# Entered — when a record can be entered in a directory, and what a failure leaves

`_dir_add_entry` needs memory for the old records and for the new ones, and room for them on the volume (`Vol.EntryRoom`).
When one of these is missing every file and directory still has its bytes (`SameContent`), whatever the allocator answered.
-/
namespace Noxis

open Option

structure Vol.EntryRoom (v : Vol) (e : Heap) (i : Nat) : Prop where
  load : e.ok [0, 0] = true
  copy : e.ok [1] = true
  size : (v.inode i).size + 32 ≤ 138 * 512
  blocks : missing v (v.inode i) 0 (blocksFor ((v.inode i).size + 32)) ≤ v.sb.freeBlocks

structure SameContent (v w : Vol) (j : Nat) : Prop where
  inode : w.inode j = v.inode j
  bytes : ∀ x < (v.inode j).size, w.byteAt j x = v.byteAt j x

theorem SameContent.refl (v : Vol) (j : Nat) : SameContent v v j := ⟨rfl, fun _ _ => rfl⟩

theorem SameContent.trans {v w u : Vol} {j : Nat} (h : SameContent v w j) (h' : SameContent w u j) : SameContent v u j :=
  ⟨h'.inode.trans h.inode, fun x hx => (h'.bytes x (by rw [h.inode]; exact hx)).trans (h.bytes x hx)⟩

theorem SameFile.content {v w : Vol} {j : Nat} (h : SameFile v w j) (hm : v.Mapped j) : SameContent v w j :=
  ⟨h.inode, fun x hx => h.byteAt_eq (hm _ (by omega))⟩

section
variable {v v1 : Vol} {e : Heap} {i parent : Nat}

/-- **`_dir_add_entry` whatever the allocator answers**: it gives up, or stores the old records and the new one. -/
theorem dirAddEntry_cases (e : Heap) (hi : v.Allocated i) (hd : v.DirOk i) (nm : Name) (ino kind : Nat) :
    (¬ (e.ok [0, 0] = true ∧ e.ok [1] = true) ∧ ∃ st, st ≠ .ok ∧ v.dirAddEntry e i nm ino kind = (v, st)) ∨
    ((e.ok [0, 0] = true ∧ e.ok [1] = true) ∧ ∃ d, (∀ x < (v.inode i).size, d x = v.byteAt i x) ∧
      v.dirAddEntry e i nm ino kind = v.storeData i (putDirent d (v.inode i).size ino kind nm) ((v.inode i).size + 32)) := by
  have hle := hd.mapped.size_le
  by_cases hload : e.ok [0, 0] = true
  · obtain ⟨buf, hbuf, hbytes⟩ : ∃ buf, v.loadData (e.sub 0) i = some ((v.inode i).size, some buf) ∧
        ∀ x < (v.inode i).size, buf x = v.byteAt i x := by
      have hcalm : v.loadData (e.sub 0) i = v.loadData ⟨fun _ => true, (e.sub 0).junk⟩ i := by
        unfold Vol.loadData Heap.kmalloc
        rw [show (e.sub 0).ok [0] = e.ok [0, 0] from rfl, if_pos hload]
        rfl
      rw [hcalm]
      exact loadData_mapped (fun _ => rfl) hi.1 hd.mapped
    have hnz : ((((v.inode i).size + 32) % 2 ^ 32 + 511) % 2 ^ 32 / 512 * 512) ≠ 0 := by omega
    unfold Vol.dirAddEntry
    rw [iread_of_lt hi.1, hbuf]
    dsimp only
    unfold Heap.kmallocOf Heap.kmalloc
    rw [if_neg hnz]
    by_cases hcopy : e.ok [1] = true
    · refine .inr ⟨⟨hload, hcopy⟩, fun x => if x < (v.inode i).size then buf x else e.junk [1] x, fun x hx => ?_, ?_⟩
      · dsimp only
        rw [if_pos hx, hbytes x hx]
      · rw [if_pos hcopy]
        dsimp only
        rw [Nat.mod_eq_of_lt (show (v.inode i).size + 32 < 2 ^ 32 by omega)]
    · rw [if_neg hcopy]
      exact .inl ⟨fun h => hcopy h.2, .oom, nofun, rfl⟩
  · refine .inl ⟨fun h => hload h.1, .oom, nofun, ?_⟩
    have hnone : ∃ size, v.loadData (e.sub 0) i = some (size, none) := by
      unfold Vol.loadData Heap.kmalloc
      rw [show (e.sub 0).ok [0] = e.ok [0, 0] from rfl, if_neg hload, iread_of_lt hi.1, map_some, map_none, map_none]
      split
      · exact ⟨_, rfl⟩
      · exact ⟨_, rfl⟩
    obtain ⟨size, hs⟩ := hnone
    unfold Vol.dirAddEntry
    rw [iread_of_lt hi.1, hs]

/-- **A record can be entered** exactly when there is room for it. -/
theorem dirAddEntry_ok_iff (e : Heap) (h : v.Sound) (hi : v.Allocated i) (hd : v.DirOk i) (nm : Name) (ino kind : Nat) :
    (v.dirAddEntry e i nm ino kind).2 = .ok ↔ v.EntryRoom e i := by
  have hle := hd.mapped.size_le
  rcases dirAddEntry_cases e hi hd nm ino kind with ⟨hno, st, hst, heq⟩ | ⟨hmem, d, -, heq⟩
  · rw [heq]
    exact ⟨fun hx => absurd hx hst, fun hr => absurd ⟨hr.load, hr.copy⟩ hno⟩
  · rw [heq, storeData_ok_iff h hi (by omega)]
    exact ⟨fun hx => ⟨hmem.1, hmem.2, hx.1, hx.2⟩, fun hr => ⟨hr.size, hr.blocks⟩⟩

/-- **A record that could not be entered** leaves every file as it was, the directory included. -/
theorem dirAddEntry_failed (e : Heap) (h : v.Sound) (hi : v.Allocated i) (hd : v.DirOk i) (nm : Name) (ino kind : Nat)
    (hf : (v.dirAddEntry e i nm ino kind).2 ≠ .ok) {j : Nat} (hj : v.Allocated j) (hm : v.Mapped j) :
    SameContent v (v.dirAddEntry e i nm ino kind).1 j := by
  rcases dirAddEntry_cases e hi hd nm ino kind with ⟨-, st, -, heq⟩ | ⟨-, d, hdata, heq⟩
  · rw [heq]
    exact SameContent.refl v j
  have hle := hd.mapped.size_le
  have hst := storeData_spec h hi (putDirent d (v.inode i).size ino kind nm)
    (show (v.inode i).size + 32 < 2 ^ 32 by omega)
  rw [← heq] at hst
  generalize v.dirAddEntry e i nm ino kind = r at hst hf
  by_cases hji : j = i
  · subst hji
    refine ⟨hst.failed (hst.status.resolve_left hf), fun x hx => ?_⟩
    rcases hst.byteAt_partly (x := x) (hm _ (by omega)) with hp | ⟨-, hp⟩
    · exact hp
    · rw [hp, putDirent_of_lt hx, hdata x hx]
  · exact (hst.others j hj hji).content hm

theorem dirAddEntry_size (e : Heap) (h : v.Sound) (hi : v.Allocated i) (hd : v.DirOk i) (nm : Name) (ino kind : Nat)
    (hok : (v.dirAddEntry e i nm ino kind).2 = .ok) :
    ((v.dirAddEntry e i nm ino kind).1.inode i).size = (v.inode i).size + 32 := by
  rcases dirAddEntry_cases e hi hd nm ino kind with ⟨-, st, hst, heq⟩ | ⟨-, d, -, heq⟩
  · rw [heq] at hok
    exact absurd hok hst
  have hle := hd.mapped.size_le
  have hst := storeData_spec h hi (putDirent d (v.inode i).size ino kind nm)
    (show (v.inode i).size + 32 < 2 ^ 32 by omega)
  rw [← heq] at hst
  exact hst.newSize hok

/-! ## Creating -/

theorem Vol.TookInode.entryRoom {ino mode : Nat} (h : v.Sound) (ht : v.TookInode v1 ino mode) (hi : v.Allocated i) :
    v1.EntryRoom e i ↔ v.EntryRoom e i := by
  have hs := ht.same h hi
  have hmiss : ∀ k, missing v1 (v1.inode i) 0 k = missing v (v.inode i) 0 k := fun k => by
    unfold missing
    rw [hs.inode, hs.ptrs]
  have hfree : v1.sb.freeBlocks = v.sb.freeBlocks := by rw [ht.sb]
  constructor
  · rintro ⟨h1, h2, h3, h4⟩
    rw [hmiss, hfree, hs.inode] at h4
    rw [hs.inode] at h3
    exact ⟨h1, h2, h3, h4⟩
  · rintro ⟨h1, h2, h3, h4⟩
    exact ⟨h1, h2, by rw [hs.inode]; exact h3, by rw [hmiss, hfree, hs.inode]; exact h4⟩

/-- **A file can be created** exactly when there is an inode and room for its record. -/
theorem creatAt_none_iff (e : Heap) (h : v.Filed) (hp : v.IsDirAt parent) (nm : Name) :
    (v.creatAt e parent nm).2 = none ↔ ¬ (v.sb.freeInodes ≠ 0 ∧ v.EntryRoom e parent) := by
  rcases creatAt_cases (e := e) h.sound parent nm with ⟨h0, hr⟩ | ⟨v1, ino, ht, hr⟩
  · rw [hr]
    exact ⟨fun _ hx => hx.1 h0, fun _ => rfl⟩
  have hp1 := (ht.sprung h.sound).keeps_dir hp
  have hiff := dirAddEntry_ok_iff e (ht.sprung h.sound).sound hp1.1 ((h.took ht).dirs _ hp1) nm ino ftFile
  rw [ht.entryRoom h.sound hp.1] at hiff
  have h0 := ht.some
  rw [hr, enteredAs]
  split
  · rename_i hok
    exact ⟨fun hx => (by cases hx), fun hx => absurd ⟨by omega, hiff.1 hok⟩ hx⟩
  · rename_i hno
    exact ⟨fun _ hx => hno (hiff.2 hx.2), fun _ => rfl⟩

/-- **A file that could not be created** leaves every file as it was. -/
theorem creatAt_failed (e : Heap) (h : v.Filed) (hp : v.IsDirAt parent) (nm : Name) (hn : (v.creatAt e parent nm).2 = none)
    {j : Nat} (hj : v.Allocated j) (hm : v.Mapped j) : SameContent v (v.creatAt e parent nm).1 j := by
  rcases creatAt_cases (e := e) h.sound parent nm with ⟨-, hr⟩ | ⟨v1, ino, ht, hr⟩
  · rw [hr]
    exact SameContent.refl v j
  have hs := ht.sprung h.sound
  have hp1 := hs.keeps_dir hp
  have hsame := hs.same j hj
  rw [hr] at hn ⊢
  rw [enteredAs_vol]
  have hf : (v1.dirAddEntry e parent nm ino ftFile).2 ≠ .ok := fun hok => by
    rw [enteredAs, if_pos hok] at hn
    cases hn
  exact (hsame.content hm).trans (dirAddEntry_failed e hs.sound hp1.1 ((h.took ht).dirs _ hp1) nm ino ftFile hf
    ((hs.allocated j).2 (.inl hj)) (hsame.mapped hm))

theorem creatAt_size (e : Heap) (h : v.Filed) (hp : v.IsDirAt parent) (nm : Name) (hn : (v.creatAt e parent nm).2 ≠ none) :
    ((v.creatAt e parent nm).1.inode parent).size = (v.inode parent).size + 32 := by
  rcases creatAt_cases (e := e) h.sound parent nm with ⟨-, hr⟩ | ⟨v1, ino, ht, hr⟩
  · rw [hr] at hn
    exact absurd rfl hn
  have hs := ht.sprung h.sound
  have hp1 := hs.keeps_dir hp
  rw [hr] at hn ⊢
  rw [enteredAs_vol]
  have hok : (v1.dirAddEntry e parent nm ino ftFile).2 = .ok := by
    by_contra hf
    rw [enteredAs, if_neg hf] at hn
    exact hn rfl
  rw [dirAddEntry_size e hs.sound hp1.1 ((h.took ht).dirs _ hp1) nm ino ftFile hok, (hs.same parent hp.1).inode]

end
end Noxis
