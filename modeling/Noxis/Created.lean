import Noxis.Filed
import Noxis.Capacity
/-!
# Created — names that were created are found, and are there once

`noxfs_mkdir` and `noxfs_creat` look a name up before they add it, `noxfs_mkdir` in the directory and `noxfs_creat` through the
file table, which knows regular files only.  The records cut a name at 23 bytes.  For names that fit, and that are no
directory of the root when `noxfs_creat` gets them, a created name is found again (`named_snoc`) and no directory gets
two live records with one name (`Vol.Unique`).
-/
namespace Noxis

open List Option Fs Function Vol Inode

def Vol.Unique (v : Vol) : Prop :=
  ∀ i, v.IsDirAt i → (v.entries i).Pairwise fun r s => r.inode ≠ 0 → s.inode ≠ 0 → r.name ≠ s.name

section
variable {v w : Vol} {e : Heap} {ino parent : Nat} {nm : Name}

section

variable (h : v.Filed)
include h

theorem Vol.Unique.sprung (hu : v.Unique) (hs : Sprung v w ino) (hnew : (w.entries ino).Pairwise fun r s => r.inode ≠ 0 →
    s.inode ≠ 0 → r.name ≠ s.name) : w.Unique := by
  intro j hj
  rcases hs.isDirAt hj with hj' | rfl
  · rw [(hs.same j hj'.1).entries_eq (h.dirs j hj')]
    exact hu j hj'
  · exact hnew

theorem Vol.Unique.took {mode : Nat} (hu : v.Unique) (ht : v.TookInode w ino mode) : w.Unique := by
  refine hu.sprung h (ht.sprung h.sound) ?_
  unfold entries
  rw [ht.size_eq]
  exact List.Pairwise.nil

theorem Vol.Unique.add {ent : Dirent} {r : Vol × Status} (hu : v.Unique) (ha : AddSpec v parent ent r)
    (hn : v.named parent ent.name = none) : r.1.Unique := by
  intro j hj
  have hj' := (ha.isDirAt j).1 hj
  by_cases hjp : j = parent
  · subst hjp
    by_cases hok : r.2 = .ok
    · rw [ha.added hok]
      refine pairwise_append.2 ⟨hu j hj', pairwise_singleton _ _, fun x hx y hy h0 _ => ?_⟩
      rw [mem_singleton.1 hy]
      exact named_none hn x hx h0
    · rw [ha.failed hok]
      exact hu j hj'
  · rw [(ha.same hj'.1 hjp).entries_eq (h.dirs j hj')]
    exact hu j hj'

theorem Sprung.named_eq (hs : Sprung v w ino) (hp : v.IsDirAt parent) : w.named parent nm = v.named parent nm := by
  unfold named
  rw [(hs.same parent hp.1).entries_eq (h.dirs parent hp)]

theorem Sprung.ne_zero (hs : Sprung v w ino) : ino ≠ 0 := fun h0 => hs.ne h.zero h0.symm

theorem Sprung.enter {kind : Nat} (hs : Sprung v w ino) (hw : w.Filed) (hu : w.Unique) (he : e.Ok) (hp : v.IsDirAt parent)
    (hk : kind < 256) (hlen : nm.length ≤ 23) (hn : v.named parent nm = none) :
    let r := enteredAs (w.dirAddEntry e parent nm ino kind) ino
    r.1.Unique ∧ r.1.IsDirAt parent ∧ ∀ i, r.2 = some i → r.1.named parent nm = some i := by
  dsimp only
  have hadd := hw.addSpec he (hs.keeps_dir hp) ((hs.allocated ino).2 (.inr rfl)) nm hk
  rw [take_of_length_le hlen] at hadd
  have hfree : w.named parent nm = none := (hs.named_eq h hp).trans hn
  rw [enteredAs_vol]
  refine ⟨hu.add hw hadd hfree, (hadd.isDirAt parent).2 (hs.keeps_dir hp), fun i hi => ?_⟩
  obtain ⟨hok, rfl⟩ := enteredAs_some hi
  exact named_snoc (hadd.added hok) hfree (hs.ne_zero h)

section

variable (hu : v.Unique) (he : e.Ok) (hp : v.IsDirAt parent) (hlen : nm.length ≤ 23)
include hu he hp hlen

/-- **`noxfs_mkdir`**: names stay unique, and the new one is found. -/
theorem mkdir_found :
    let r := v.mkdir e parent nm
    r.1.Unique ∧ r.1.IsDirAt parent ∧ ∀ i, r.2 = some i → r.1.named parent nm = some i := by
  have hlt : parent < 2 ^ 32 := by have := hp.1.lt h.sound; omega
  rcases mkdir_cases (e := e) h.sound hlt nm with ⟨-, hr⟩ | ⟨-, hl, v1, ino, ht, ⟨-, hr⟩ | ⟨w, hd, hr⟩⟩
  · rw [hr]
    exact ⟨hu, hp, fun i hi => by cases hi⟩
  · rw [hr]
    exact ⟨hu.took h ht, (ht.sprung h.sound).keeps_dir hp, fun i hi => by cases hi⟩
  · have hs := hd.sprung (ht.sprung h.sound)
    rw [h.dirLookupName (he.sub 0) hp] at hl
    rw [hr]
    refine hs.enter h (h.dotted hp.1 ht hd) (hu.sprung h hs ?_) (he.sub 1) hp (by decide) hlen hl
    rw [hd.entries]
    simp [dots]

/-- **`noxfs_creat_at`** under a name that is not there. -/
theorem creatAt_found (hn : v.named parent nm = none) :
    let r := v.creatAt e parent nm
    r.1.Unique ∧ r.1.IsDirAt parent ∧ ∀ i, r.2 = some i → r.1.named parent nm = some i := by
  rcases creatAt_cases (e := e) h.sound parent nm with ⟨-, hr⟩ | ⟨v1, ino, ht, hr⟩
  · rw [hr]
    exact ⟨hu, hp, fun i hi => by cases hi⟩
  · rw [hr]
    exact (ht.sprung h.sound).enter h (h.took ht) (hu.took h ht) he hp (by decide) hlen hn

end

end

/-! ## A path of one component -/

theorem components_plain (hp : Plain nm) : components nm.length nm = [nm] := by
  obtain ⟨n, hn⟩ : ∃ n, nm.length = n + 1 := Nat.exists_eq_succ_of_ne_zero (fun h0 => hp.ne (eq_nil_of_length_eq_zero h0))
  have hw : words nm.length nm = [nm] := by
    have := words_comp (c := nm) (p := []) n hp.ne hp.slash rfl
    rw [append_nil] at this
    rw [hn, this]
    cases n <;> rfl
  rw [components_eq_words _ _ (fun c hc => ?_), hw]
  rw [hw] at hc
  rw [mem_singleton.1 hc]
  exact le_trans hp.short (by decide)

theorem resolve_plain (hp : Plain nm) (e : Heap) (v : Vol) (base : Nat) :
    v.resolve e base nm = v.dirLookupName (e.sub 0) base nm := by
  have hslash : nm.head? ≠ some 47 := fun h47 => hp.slash (mem_of_mem_head? h47)
  unfold resolve
  rw [if_neg hslash, components_plain hp, Vol.walk, if_neg hp.dot, if_neg hp.dots]
  cases v.dirLookupName (e.sub 0) base nm with
  | none => rfl
  | some i => rfl

end

namespace Fs

variable {fs : Fs} {e : Heap} {nm : Name} {ino : Nat}

theorem lookup_vol (e : Heap) (fs : Fs) (nm : Name) : (fs.lookup e nm).1.vol = fs.vol := by
  unfold lookup
  split
  · rfl
  split
  · rfl
  · split
    · rfl
    · split
      · rfl
      · split
        · rfl
        · split
          · rfl
          · exact cacheFile_vol _ fs _ _

theorem cacheFile_ok (he : e.Ok) (hi : ino < fs.vol.sb.inodeCount) (hsize : (fs.vol.inode ino).size ≤ 138 * 512) :
    (fs.cacheFile e nm ino).2 = true := by
  obtain ⟨bytes, hload⟩ : ∃ bytes, fs.vol.loadData e ino = some ((fs.vol.inode ino).size, some bytes) := by
    unfold loadData
    rw [iread_of_lt hi, map_some, he.kmalloc]
    split
    · rename_i h0
      rw [h0]
      exact ⟨_, rfl⟩
    · exact ⟨_, rfl⟩
  have hbytes : loadBytes (fs.vol.inode ino).size ≠ 0 := by
    unfold loadBytes roundUp
    split <;> omega
  unfold cacheFile loadSlot
  simp only [setFile, hload, if_neg hbytes, if_true]

/-- If the name is in the root directory, it is a regular file's. -/
def CreatOk (fs : Fs) (nm : Name) : Prop :=
  ∀ ino, fs.vol.named fs.vol.sb.rootIno nm = some ino →
    ino ≠ fs.vol.sb.rootIno ∧ (fs.vol.inode ino).isFile = true ∧ (fs.vol.inode ino).size ≤ 138 * 512

theorem named_of_lookup (h : fs.vol.Filed) (he : e.Ok) (hp : Plain nm) (hc : fs.count < noxfsMaxFiles) (hok : fs.CreatOk nm)
    (hl : (fs.lookup e nm).2 = none) : fs.vol.named fs.vol.sb.rootIno nm = none := by
  cases hn : fs.vol.named fs.vol.sb.rootIno nm with
  | none => rfl
  | some ino =>
    obtain ⟨hroot, hfile, hsize⟩ := hok ino hn
    have hi := (h.named_allocated h.root hn).1
    have hres : fs.vol.resolve (e.sub 0) fs.vol.sb.rootIno nm = some ino := by
      rw [resolve_plain hp, h.dirLookupName ((he.sub 0).sub 0) h.root, hn]
    unfold lookup at hl
    cases hcached : fs.cached nm with
    | some i =>
      rw [hcached] at hl
      cases hl
    | none =>
      rw [hcached, hres] at hl
      simp only [if_neg hroot, iread_of_lt hi.1, hfile, Bool.true_eq_false, if_false, if_neg (not_le.2 hc),
        cacheFile_ok (he.sub 1) hi.1 hsize, if_true] at hl
      cases hl

/-! ## The calls -/

inductive Make where
  | mkdir (parent : Nat) (nm : Name)
  | creat (nm : Name)

def Make.name : Make → Name
  | .mkdir _ nm => nm
  | .creat nm => nm

def Make.dir (fs : Fs) : Make → Nat
  | .mkdir parent _ => parent
  | .creat _ => fs.vol.sb.rootIno

def make (fs : Fs) (call : Heap × Make) : Fs × Option Nat :=
  match call.2 with
  | .mkdir parent nm => fs.mkdir call.1 parent nm
  | .creat nm => ((fs.creat call.1 nm).1, (fs.creat call.1 nm).2.map fun k => ((fs.creat call.1 nm).1.files k).inode)

/-- The name fits a record and is no dots, `noxfs_creat` gets no name of a directory, and memory does not run out. -/
structure MakeOk (fs : Fs) (call : Heap × Make) : Prop where
  heap : call.1.Ok
  plain : Plain call.2.name
  isDir : fs.vol.IsDirAt (call.2.dir fs)
  creat : ∀ nm, call.2 = .creat nm → fs.CreatOk nm

def Tidy (fs : Fs) : Prop := fs.vol.Filed ∧ fs.vol.Unique

/-- **`noxfs_creat`**: names stay unique, and the new one is found. -/
theorem creat_found (h : fs.Tidy) (he : e.Ok) (hp : Plain nm) (hok : fs.CreatOk nm) :
    let r := fs.creat e nm
    r.1.Tidy ∧ r.1.vol.IsDirAt fs.vol.sb.rootIno ∧
    ∀ k, r.2 = some k → r.1.vol.named fs.vol.sb.rootIno nm = some (r.1.files k).inode := by
  dsimp only
  unfold creat
  split
  · exact ⟨h, h.1.root, fun k hk => by cases hk⟩
  rename_i hc
  have hvol := lookup_vol (e.sub 0) fs nm
  have hfree := named_of_lookup h.1 (he.sub 0) hp (not_le.1 hc) hok
  split
  · rename_i fs1 k hx
    rw [hx] at hvol
    unfold Tidy
    rw [show fs1.vol = fs.vol from hvol]
    exact ⟨h, h.1.root, fun k hk => by cases hk⟩
  · rename_i fs1 hx
    rw [hx] at hvol hfree
    obtain ⟨hu, hdir, hfound⟩ := creatAt_found h.1 h.2 (he.sub 1) h.1.root hp.short (hfree rfl)
    have hf := h.1.creatAt (he.sub 1) h.1.root nm
    rw [show fs1.vol = fs.vol from hvol]
    split
    · rename_i v hv
      rw [hv] at hu hf hdir
      exact ⟨⟨hf, hu⟩, hdir, fun k hk => by cases hk⟩
    rename_i v ino hv
    rw [hv] at hu hf hdir hfound
    rw [he.kmalloc]
    refine ⟨⟨hf, hu⟩, hdir, fun k hk => ?_⟩
    obtain rfl := some.inj hk
    refine (hfound ino rfl).trans (congrArg some ?_)
    simp only [setFile, newBuf, update_self]

theorem Tidy.make (h : fs.Tidy) (call : Heap × Make) (hok : fs.MakeOk call) : (fs.make call).1.Tidy ∧
    (fs.make call).1.vol.IsDirAt (call.2.dir fs) ∧
    ∀ ino, (fs.make call).2 = some ino → (fs.make call).1.vol.named (call.2.dir fs) call.2.name = some ino := by
  obtain ⟨e, call⟩ := call
  cases call with
  | mkdir parent nm =>
    obtain ⟨hu, hdir, hfound⟩ := mkdir_found h.1 h.2 hok.heap hok.isDir hok.plain.short
    exact ⟨⟨h.1.mkdir hok.heap hok.isDir nm, hu⟩, hdir, hfound⟩
  | creat nm =>
    obtain ⟨ht, hdir, hfound⟩ := creat_found h hok.heap hok.plain (hok.creat nm rfl)
    refine ⟨ht, hdir, fun ino hi => ?_⟩
    obtain ⟨k, hk, rfl⟩ := map_eq_some_iff.1 hi
    exact hfound k hk

/-- **Created names are found again and are unique.**  In every run of creations from a filed volume with unique names, each
with a name that fits: a name that was created is found, as the new inode, and in the end no directory holds two live
records with one name. -/
theorem created_found_unique (fs : Fs) (hfiled : fs.vol.Filed) (hunique : fs.vol.Unique) (calls : List (Heap × Make))
    (hok : ∀ pre call post, calls = pre ++ call :: post → (run make fs pre).1.MakeOk call) : (run make fs calls).1.vol.Unique ∧
    ∀ pre call post, calls = pre ++ call :: post → ∀ ino, ((run make fs pre).1.make call).2 = some ino → ∀ e : Heap, e.Ok →
        ((run make fs pre).1.make call).1.vol.resolve e (call.2.dir (run make fs pre).1) call.2.name = some ino := by
  have hrun : ∀ is, (∀ pre call post, is = pre ++ call :: post → (run make fs pre).1.MakeOk call) → (run make fs is).1.Tidy :=
    fun is his => run_inv (P := Tidy) (C := MakeOk) (fun s call h hcall => (h.make call hcall).1) is fs ⟨hfiled, hunique⟩ his
  refine ⟨(hrun calls hok).2, fun pre call post hcalls ino hino e he => ?_⟩
  have hpre := hrun pre (fun p c q hp => hok p c (q ++ call :: post) (by rw [hcalls, hp, append_assoc, cons_append]))
  have hcall := hok pre call post hcalls
  obtain ⟨htidy, hdir, hfound⟩ := hpre.make call hcall
  rw [resolve_plain hcall.plain, htidy.1.dirLookupName (he.sub 0) hdir]
  exact hfound ino hino

def bare (v : Vol) : Fs := ⟨v, fun _ => ⟨fun _ => 0, 0, 0, 0, 0⟩, 0, fun _ => ⟨0, fun _ => 0⟩, 9⟩

end Fs

theorem rootVol_inode (i : Nat) : rootVol.inode i = if i = 0 then (new modeDir).trunc else fun _ => 0 := by
  rw [rootVol, inode_putInode, blankVol_inode]

theorem rootVol_isDir {i : Nat} (h : (rootVol.inode i).isDir = true) : i = 0 := by
  by_contra hne
  rw [rootVol_inode, if_neg hne] at h
  exact absurd h (by decide)

theorem rootVol_filed : rootVol.Filed := by
  have hptr : ∀ i t, ptr blankVol.disk (update blankVol.inode 0 (new modeDir) i) t = 0 := by
    intro i t
    by_cases hi : i = 0
    · rw [hi, update_self, ptr_new]
    · rw [update_of_ne hi, blankVol_ptr]
  have hw : Wf blankVol blankVol.Allocated (update blankVol.inode 0 (new modeDir)) :=
    ⟨blankVol_sound.layout, blankVol_sound.metadata, blankVol_sound.owned.sub (fun _ hu => hu) (fun i t _ h0 => absurd (hptr i t) h0),
      blankVol_sound.freeBlocks, blankVol_sound.freeInodes⟩
  have hinUse : rootVol.inUse = blankVol.inUse := rfl
  have hsize : (rootVol.inode 0).size = 0 := by rw [rootVol_inode, if_pos rfl, size_trunc, new_size]
  have hzero : rootVol.Allocated 0 := ⟨by decide, by decide +kernel⟩
  refine ⟨(hw.putInode (by decide)).congr_allocated (fun j hj => ⟨hj.1, hinUse ▸ hj.2⟩), ⟨hzero, by decide +kernel⟩, hzero, ?_, ?_⟩
  · intro i hi
    obtain rfl := rootVol_isDir hi.2
    exact dirOk_of_empty hi.2 hsize
  · intro i hi r hr
    obtain rfl := rootVol_isDir hi.2
    unfold entries at hr
    rw [hsize] at hr
    cases hr

theorem rootVol_unique : rootVol.Unique := by
  intro i hi
  obtain rfl := rootVol_isDir hi.2
  have hnil : rootVol.entries 0 = [] := by decide +kernel
  rw [hnil]
  exact List.Pairwise.nil

/-- A directory is made in the root. -/
theorem created_found_unique_dir : (run Fs.make (Fs.bare rootVol) [(calm, .mkdir 0 [97])]).1.vol.Unique ∧
    ((Fs.bare rootVol).make (calm, .mkdir 0 [97])).1.vol.resolve calm 0 [97] = some 1 := by
  have hok : ∀ pre call post, [(calm, Fs.Make.mkdir 0 [97])] = pre ++ call :: post →
      (run make (bare rootVol) pre).1.MakeOk call := by
    refine splits_cons.2 ⟨⟨fun _ => rfl, ⟨by decide, by decide, by decide, by decide, by decide⟩, rootVol_filed.root, ?_⟩, splits_nil⟩
    exact fun nm hnm => by cases hnm
  obtain ⟨hu, hfound⟩ := created_found_unique (bare rootVol) rootVol_filed rootVol_unique [(calm, .mkdir 0 [97])] hok
  exact ⟨hu, hfound [] (calm, .mkdir 0 [97]) [] rfl 1 (by decide +kernel) calm (fun _ => rfl)⟩

/-- **A name of 24 bytes**: it is created twice, found neither time, and is in the root twice. -/
theorem long_name_twice :
    (run Fs.make (Fs.bare rootVol) [(calm, .mkdir 0 (List.replicate 24 97)), (calm, .mkdir 0 (List.replicate 24 97))]).2 =
      [some 1, some 2] ∧
    (run Fs.make (Fs.bare rootVol) [(calm, .mkdir 0 (List.replicate 24 97))]).1.vol.resolve calm 0 (List.replicate 24 97) = none ∧
    (run Fs.make (Fs.bare rootVol) [(calm, .mkdir 0 (List.replicate 24 97)), (calm, .mkdir 0 (List.replicate 24 97))]).1.vol.entries 0 =
      [⟨1, ftDir, List.replicate 23 97⟩, ⟨2, ftDir, List.replicate 23 97⟩] :=
  ⟨by decide +kernel, by decide +kernel, by decide +kernel⟩

end Noxis
