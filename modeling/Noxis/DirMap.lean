import Noxis.Created
/-!
# DirMap — a directory as a finite map

`_dir_add_entry` and `_dir_remove_entry` read the whole directory, change the list of records and store it again.  What a name
leads to is the first live record with it: `dir_finite_map` says that the two functions add and remove one name of a map.
-/
namespace Noxis

open List Option Dirent Vol

/-! ## Records by name -/

section Records

variable {rs : List Dirent} {nm other : Name} {ent : Dirent}

def NamesDistinct (rs : List Dirent) : Prop := rs.Pairwise fun r s => r.inode ≠ 0 → s.inode ≠ 0 → r.name ≠ s.name

/-- **The removed name is gone**: there was one record of it. -/
theorem find_erased_self : ∀ {rs : List Dirent}, NamesDistinct rs → (rs.eraseP (hit nm)).find? (hit nm) = none
  | [], _ => rfl
  | r :: rs, h => by
    obtain ⟨hfirst, hrest⟩ := pairwise_cons.mp h
    by_cases hr : r.hit nm = true
    · rw [eraseP_cons_of_pos hr, find?_eq_none]
      rw [hit_iff] at hr
      intro s hs hhit
      rw [hit_iff] at hhit
      exact hfirst s hs hr.1 hhit.1 (hr.2.trans hhit.2.symm)
    · rw [eraseP_cons_of_neg hr, find?_cons_of_neg hr]
      exact find_erased_self hrest

/-- **The other names lead where they led.** -/
theorem find_erased_other (hne : other ≠ nm) : ∀ {rs : List Dirent},
    (rs.eraseP (hit nm)).find? (hit other) = rs.find? (hit other)
  | [] => rfl
  | r :: rs => by
    by_cases hr : r.hit nm = true
    · have hother : ¬ r.hit other = true := fun ho => hne (((hit_iff r).mp ho).2.symm.trans ((hit_iff r).mp hr).2)
      rw [eraseP_cons_of_pos hr, find?_cons_of_neg hother]
    · rw [eraseP_cons_of_neg hr]
      by_cases ho : r.hit other = true
      · rw [find?_cons_of_pos ho, find?_cons_of_pos ho]
      · rw [find?_cons_of_neg ho, find?_cons_of_neg ho, find_erased_other hne]

theorem NamesDistinct.eraseP (h : NamesDistinct rs) : NamesDistinct (rs.eraseP (hit nm)) := by
  unfold NamesDistinct at *
  exact h.sublist eraseP_sublist

theorem find_added_self (habsent : rs.find? (hit nm) = none) (hhit : ent.hit nm = true) :
    (rs ++ [ent]).find? (hit nm) = some ent := by
  rw [find?_append, habsent, find?_cons_of_pos hhit]
  rfl

theorem find_added_other (hne : other ≠ ent.name) : (rs ++ [ent]).find? (hit other) = rs.find? (hit other) := by
  have hmiss : ¬ ent.hit other = true := fun ho => hne ((hit_iff ent).mp ho).2.symm
  rw [find?_append, find?_cons_of_neg hmiss, find?_nil, or_none]

theorem NamesDistinct.append (h : NamesDistinct rs) (habsent : rs.find? (hit ent.name) = none) : NamesDistinct (rs ++ [ent]) := by
  unfold NamesDistinct at *
  rw [pairwise_append]
  refine ⟨h, pairwise_singleton .., fun r hr s hs h1 _ hname => ?_⟩
  rw [mem_singleton.mp hs] at hname
  exact find?_eq_none.mp habsent r hr ((hit_iff r).mpr ⟨h1, hname⟩)

end Records

/-! ## The volume -/

def Vol.lookupIno (e : Heap) (v : Vol) (dir : Nat) (nm : Name) : Nat := (v.dirLookupName e dir nm).getD (2 ^ 32 - 1)

section Volume

variable {v w : Vol} {e : Heap} {i : Nat} {nm other : Name}

theorem lookupIno_eq (he : e.Ok) (hi : i < v.sb.inodeCount) (hd : v.DirOk i) (nm : Name) :
    v.lookupIno e i nm = (v.named i nm).getD (2 ^ 32 - 1) := by
  rw [lookupIno, dirLookupName_eq he hi hd]
  cases v.named i nm with
  | none => rfl
  | some ino =>
    by_cases hx : ino = 2 ^ 32 - 1
    · rw [hx]
      rfl
    · rw [filter_some_pos (p := fun ino : Nat => ino != 2 ^ 32 - 1) (bne_iff_ne.mpr hx)]

def Vol.OthersKept (v w : Vol) (i : Nat) : Prop :=
  ∀ j, v.Allocated j → j ≠ i → w.inode j = v.inode j ∧ ∀ e : Heap, w.loadData e j = v.loadData e j

theorem StoreSpec.othersKept {data : Nat → UInt8} {size : Nat} {r : Vol × Status} (h : StoreSpec v i data size r) :
    v.OthersKept r.1 i := fun j hj hne => ⟨(h.others j hj hne).inode, fun e => (h.others j hj hne).loadData_eq e h.count⟩

/-- The directory leads from every name but `nm` where it led, whatever memory the lookups get. -/
def Vol.OtherNames (v w : Vol) (i : Nat) (nm : Name) : Prop :=
  ∀ (e e' : Heap), e.Ok → e'.Ok → ∀ other, other ≠ nm → w.lookupIno e i other = v.lookupIno e' i other

structure Added (v w : Vol) (i : Nat) (nm : Name) (ino : Nat) : Prop where
  distinct : NamesDistinct (w.entries i)
  found : ∀ e : Heap, e.Ok → w.lookupIno e i nm = ino
  names : v.OtherNames w i nm
  kept : v.OthersKept w i

/-- `nm` has been removed: it was the record `k`, and the bytes of the others stand in their order. -/
structure Erased (v w : Vol) (i : Nat) (nm : Name) : Prop where
  distinct : NamesDistinct (w.entries i)
  gone : ∀ e : Heap, e.Ok → w.lookupIno e i nm = 2 ^ 32 - 1
  names : v.OtherNames w i nm
  bytes : ∃ k, (direntAt (v.byteAt i) k).hit nm = true ∧ 32 * k + 32 ≤ (v.inode i).size ∧ (w.inode i).size = (v.inode i).size - 32 ∧
    ∀ x < (w.inode i).size, w.byteAt i x = v.byteAt i (if x < 32 * k then x else x + 32)
  kept : v.OthersKept w i

section

variable (h : v.Sound) (hi : v.Allocated i) (hd : v.DirOk i) (hdist : NamesDistinct (v.entries i))
include h hi hd hdist

theorem dirAddEntry_added (hlen : nm.length ≤ 23) (he : e.Ok) {ino kind : Nat} (h0 : ino ≠ 0) (hino : ino < 2 ^ 32)
    (hkind : kind < 256) (habsent : v.named i nm = none) (hok : (v.dirAddEntry e i nm ino kind).2 = .ok) :
    Added v (v.dirAddEntry e i nm ino kind).1 i nm ino := by
  have hadd := dirAddEntry_spec he h hi hd nm hino hkind
  generalize v.dirAddEntry e i nm ino kind = r at hadd hok ⊢
  obtain ⟨data, size, hst⟩ := hadd.store
  have hi' : i < r.1.sb.inodeCount := by rw [hst.count]; exact hi.1
  have hent := hadd.added hok
  rw [take_of_length_le hlen] at hent
  have hnone : (v.entries i).find? (hit nm) = none := map_eq_none_iff.mp habsent
  refine ⟨?_, fun e' he' => ?_, fun e1 e2 he1 he2 other hne => ?_, hst.othersKept⟩
  · rw [hent]
    exact hdist.append hnone
  · rw [lookupIno_eq he' hi' hadd.dirOk, named, hent, find_added_self hnone ((hit_iff _).mpr ⟨h0, rfl⟩)]
    rfl
  · rw [lookupIno_eq he1 hi' hadd.dirOk, lookupIno_eq he2 hi.1 hd, named, named, hent, find_added_other hne]

theorem dirRemoveEntry_erased (he : e.Ok) (hpresent : v.named i nm ≠ none) : (v.dirRemoveEntry e i nm).2 = .ok ∧
    Erased v (v.dirRemoveEntry e i nm).1 i nm := by
  obtain ⟨ino, hn⟩ := ne_none_iff_exists'.mp hpresent
  have hrem := dirRemoveEntry_spec he h hi hd nm hn
  have hwhole := hd.whole
  have hle := hd.mapped.size_le
  obtain ⟨hnone, -⟩ | ⟨k, d, hf, hbytes, heq⟩ := dirRemoveEntry_eq he hi.1 hd nm
  · rw [named, v.find_entries, hnone] at hn
    cases hn
  have hst := storeData_spec h hi d (show (v.inode i).size - 32 < 2 ^ 32 by omega)
  rw [← heq] at hst
  generalize v.dirRemoveEntry e i nm = r at hrem hst ⊢
  have hi' : i < r.1.sb.inodeCount := by rw [hst.count]; exact hi.1
  refine ⟨hrem.ok, ?_, fun e' he' => ?_, fun e1 e2 he1 he2 other hne => ?_, ?_, hst.othersKept⟩
  · rw [hrem.erased]
    exact hdist.eraseP
  · rw [lookupIno_eq he' hi' hrem.dirOk, named, hrem.erased, find_erased_self hdist]
    rfl
  · rw [lookupIno_eq he1 hi' hrem.dirOk, lookupIno_eq he2 hi.1 hd, named, named, hrem.erased, find_erased_other hne]
  · obtain ⟨hk, hhit, -⟩ := findEntry_some hf
    refine ⟨k, hhit, by omega, hst.newSize hrem.ok, fun x hx => ?_⟩
    rw [hst.newSize hrem.ok] at hx
    rw [hst.byteAt_ok hrem.ok (by omega) hx, hbytes x hx, compact]
    split <;> rfl

end

/-- **A directory behaves as a finite map.**  On a sound volume, for a directory of whole records whose live names are distinct
and without failed allocations: adding an absent name makes it lead to its inode, removing a present one makes it lead nowhere
and keeps the bytes and the order of the other records, both leave what every other name leads to and every other file; and
removing an absent name changes nothing. -/
theorem dir_finite_map (h : v.Sound) (hi : v.Allocated i) (hd : v.DirOk i) (hdist : NamesDistinct (v.entries i)) (nm : Name)
    (hlen : nm.length ≤ 23) (he : e.Ok) :
    (v.named i nm = none → ∀ ino kind, ino ≠ 0 → ino < 2 ^ 32 → kind < 256 → (v.dirAddEntry e i nm ino kind).2 = .ok →
      Added v (v.dirAddEntry e i nm ino kind).1 i nm ino) ∧
    (v.named i nm ≠ none → (v.dirRemoveEntry e i nm).2 = .ok ∧ Erased v (v.dirRemoveEntry e i nm).1 i nm) ∧
    (v.named i nm = none → v.dirRemoveEntry e i nm = (v, .notFound)) := by
  refine ⟨fun habsent ino kind h0 hino hkind hok => dirAddEntry_added h hi hd hdist hlen he h0 hino hkind habsent hok,
    fun hpresent => dirRemoveEntry_erased h hi hd hdist he hpresent, fun habsent => ?_⟩
  obtain ⟨-, heq⟩ | ⟨k, d, hf, -, -⟩ := dirRemoveEntry_eq he hi.1 hd nm
  · exact heq
  · rw [named, v.find_entries, hf] at habsent
    cases habsent

end Volume

/-- The name `a` in the empty root directory. -/
theorem dir_finite_map_root : Added rootVol (rootVol.dirAddEntry calm 0 [97] 1 ftFile).1 0 [97] 1 ∧
    rootVol.dirRemoveEntry calm 0 [97] = (rootVol, .notFound) := by
  have hroot := rootVol_filed.root
  have hmap := dir_finite_map (e := calm) rootVol_filed.sound hroot.1 (rootVol_filed.dirs 0 hroot) (rootVol_unique 0 hroot) [97]
    (by decide) fun _ => rfl
  have hnone : rootVol.named 0 [97] = none := by decide +kernel
  exact ⟨hmap.1 hnone 1 ftFile (by decide) (by decide) (by decide) (by decide +kernel), hmap.2.2 hnone⟩

end Noxis
