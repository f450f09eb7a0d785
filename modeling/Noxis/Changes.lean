import Noxis.Removed
import Noxis.Coherent
/-!
# Changes — runs of calls that change the volume

The calls of NoxFS that create, write, remove and rename, as one step system over `Fs`.  `Fs.Upright` is what they keep: the
volume is filed (`Vol.Filed`).  An inode is freed with the removal of one record, whatever other records name it: `.` of a
directory removed from the directory itself frees it under its parent's record.  In every run that frees an inode only with
its last record, and writes only to regular files that are there, the structure of the volume is kept (`structure_kept`).
-/
namespace Noxis

open Bitmap

namespace Fs

inductive Change where
  | creat (nm : Name)
  | mkdir (parent : Nat) (nm : Name)
  | write (k offset : Nat) (data : List UInt8)
  | unlink (parent : Nat) (nm : Name)
  | rmdir (parent : Nat) (nm : Name)
  | rename (src : Nat) (srcName : Name) (dst : Nat) (dstName : Name)
  | trunc (nm : List UInt8)

def change (fs : Fs) (c : Heap × Change) : Fs × Bool :=
  match c.2 with
  | .creat nm => ((fs.creat c.1 nm).1, (fs.creat c.1 nm).2.isSome)
  | .mkdir parent nm => ((fs.mkdir c.1 parent nm).1, (fs.mkdir c.1 parent nm).2.isSome)
  | .write k offset data => ((fs.write c.1 k offset data).1, (fs.write c.1 k offset data).2.isSome)
  | .unlink parent nm => ((fs.unlink c.1 parent nm).1, decide ((fs.unlink c.1 parent nm).2 = .ok))
  | .rmdir parent nm => ((fs.rmdir c.1 parent nm).1, decide ((fs.rmdir c.1 parent nm).2 = .ok))
  | .rename src srcName dst dstName =>
    ((fs.rename c.1 src srcName dst dstName).1, decide ((fs.rename c.1 src srcName dst dstName).2 = .ok))
  | .trunc nm =>
    match fs.lookup c.1 nm with
    | (fs, none) => (fs, false)
    | (fs, some k) => (fs.setFile k { fs.files k with size := 0 }, true)

structure Upright (fs : Fs) : Prop where
  filed : fs.vol.Filed
  words : ∀ k < fs.count, (fs.files k).size < 2 ^ 32

variable {fs fs1 : Fs} {e : Heap} {k : Nat} {f : VfsFile}

theorem Upright.same (h : fs.Upright) (hs : fs.Same fs1) (hv : fs1.vol.Filed) : fs1.Upright := by
  refine ⟨hv, fun k hk => ?_⟩
  rw [hs.count] at hk
  rw [hs.files k hk]
  exact h.words k hk

theorem Upright.pushed (h : fs.Upright) (hp : fs.Pushed fs1 f) (hv : fs1.vol.Filed) (hf : f.size < 2 ^ 32) : fs1.Upright := by
  refine ⟨hv, fun k hk => ?_⟩
  rw [hp.count] at hk
  by_cases hlt : k < fs.count
  · rw [hp.files k hlt]
    exact h.words k hlt
  · obtain rfl : k = fs.count := by omega
    rw [hp.new]
    exact hf

theorem Loads.size_lt {ino : Nat} (h : Loads e fs fs1 ino f) : f.size < 2 ^ 32 := by
  have hsize := (loadData_size h.load).1
  have hlt : (fs.vol.inode ino).size < 2 ^ 32 := leRead_lt _ _ _
  omega

theorem Upright.lookup (h : fs.Upright) (nm : List UInt8) : (fs.lookup e nm).1.Upright := by
  have hvol := lookup_vol e fs nm
  rcases lookup_cases e fs nm with ⟨hs, -⟩ | ⟨ino, f, -, -, -, hl, -⟩
  · exact h.same hs (by rw [hvol]; exact h.filed)
  · exact h.pushed hl.pushed (by rw [hvol]; exact h.filed) hl.size_lt

theorem Upright.creat (h : fs.Upright) (he : e.Ok) (nm : Name) : (fs.creat e nm).1.Upright := by
  have hv := h.filed.creatAt (he.sub 1) h.filed.root nm
  rcases creat_cases e fs nm with ⟨-, hr | hr⟩ | ⟨-, hs, hvol⟩ | ⟨v, ino, f, hc, hp, -, hsize, hvol, -⟩
  · rw [hr]
    exact h
  · rw [hr]
    exact h.lookup nm
  · exact h.same hs (by rw [hvol]; exact hv)
  · refine h.pushed hp ?_ (by omega)
    rw [hvol]
    rwa [hc] at hv

theorem Upright.evictFreed (h : fs.Upright) (o : Option Nat) : (fs.evictFreed o).Upright := by
  unfold Fs.evictFreed
  split
  · exact h
  unfold Fs.evict
  split
  · exact h
  refine ⟨h.filed, fun j hj => ?_⟩
  dsimp only at hj ⊢
  split
  · exact h.words (j + 1) (by omega)
  · exact h.words j (by omega)

theorem Upright.withVol {v : Vol} (h : fs.Upright) (hv : v.Filed) : ({ fs with vol := v } : Fs).Upright := ⟨hv, h.words⟩

/-- A write through entry `k` goes to a regular file that is there, does not wrap around, and stays inside the buffer. -/
structure WriteOk (fs : Fs) (k offset len : Nat) : Prop where
  entry : k < fs.count
  allocated : fs.vol.Allocated (fs.files k).inode
  notDir : (fs.vol.inode (fs.files k).inode).isDir = false
  lt : offset + len < 2 ^ 32
  fits : offset + len ≤ (fs.files k).capacity → offset + len ≤ up16 (fs.bufs (fs.files k).data).len

theorem Upright.write_store {offset : Nat} {data : List UInt8} (h : fs.Upright) (hok : fs.WriteOk k offset data.length) :
    let r := fs.write e k offset data
    fs.write e k offset data = (fs, none) ∨ fs.write e k offset data = (fs, some 0) ∨ Poked fs k offset data r ∧
    StoreSpec fs.vol (fs.files k).inode (r.1.byte k) (r.1.files k).size (fs.vol.storeData (fs.files k).inode (r.1.byte k)
      (r.1.files k).size) := by
  by_cases hne : data = []
  · exact .inr (.inl (if_pos hne))
  rcases write_poked (e := e) (k := k) hne hok.lt with hfail | hp
  · exact .inl hfail
  refine .inr (.inr ⟨hp, storeData_spec h.filed.sound hok.allocated _ ?_⟩)
  have := h.words k hok.entry
  have := hok.lt
  rw [hp.size]
  omega

theorem Upright.write {offset : Nat} {data : List UInt8} (h : fs.Upright) (hok : fs.WriteOk k offset data.length) :
    (fs.write e k offset data).1.Upright := by
  rcases h.write_store (e := e) hok with hr | hr | ⟨hp, hst⟩
  · rw [hr]
    exact h
  · rw [hr]
    exact h
  · refine ⟨by rw [hp.vol]; exact h.filed.store hst hok.notDir, fun j hj => ?_⟩
    rw [hp.count] at hj
    by_cases hjk : j = k
    · have := h.words k hok.entry
      have := hok.lt
      rw [hjk, hp.size]
      omega
    · rw [hp.others j hjk]
      exact h.words j hj

/-- An inode is freed only with the last record that names it, parents are directories, and a write goes where `WriteOk`
says. -/
def ChangeOk (fs : Fs) (c : Heap × Change) : Prop :=
  c.1.Ok ∧ match c.2 with
  | .creat _ => True
  | .mkdir parent _ => fs.vol.IsDirAt parent
  | .write k offset data => fs.WriteOk k offset data.length
  | .unlink parent nm => fs.vol.IsDirAt parent ∧ ∀ ino, fs.vol.Frees parent nm ino → fs.vol.Sole parent nm ino
  | .rmdir parent nm => fs.vol.IsDirAt parent ∧
      ∀ ino, fs.vol.Frees parent nm ino → (fs.vol.inode ino).isDir = true → fs.vol.Sole parent nm ino
  | .rename src srcName dst dstName => fs.vol.IsDirAt src ∧ fs.vol.IsDirAt dst ∧ fs.vol.RenameOk src srcName dst dstName
  | .trunc _ => True

theorem Upright.change (h : fs.Upright) (c : Heap × Change) (hok : fs.ChangeOk c) : (fs.change c).1.Upright := by
  obtain ⟨e, c⟩ := c
  obtain ⟨he, hok⟩ := hok
  cases c with
  | creat nm => exact h.creat he nm
  | mkdir parent nm => exact h.withVol (h.filed.mkdir he hok nm)
  | write k offset data => exact h.write hok
  | unlink parent nm => exact (h.withVol (h.filed.unlink he hok.1 nm hok.2)).evictFreed _
  | rmdir parent nm => exact (h.withVol (h.filed.rmdir he hok.1 nm hok.2)).evictFreed _
  | rename src srcName dst dstName =>
    exact (h.withVol (h.filed.rename he hok.1 hok.2.1 srcName dstName hok.2.2)).evictFreed _
  | trunc nm =>
    have hl := h.lookup (e := e) nm
    unfold Fs.change
    dsimp only
    generalize fs.lookup e nm = r at hl
    obtain ⟨fs1, o⟩ := r
    cases o with
    | none => exact hl
    | some k =>
      refine ⟨hl.filed, fun j hj => ?_⟩
      by_cases hjk : j = k
      · subst hjk
        simp only [setFile, Function.update_self]
        decide
      · simp only [setFile, Function.update_of_ne hjk]
        exact hl.words j hj

/-- **The structure of the volume is kept.**  From a filed volume, in every run of calls that free an inode only with its last
record and write only to regular files that are there: every live record of a directory names an allocated inode; no block
stands in two slots of the allocated inodes; every block in a slot is marked; and the two counters are the numbers of clear
bits. -/
theorem structure_kept (fs : Fs) (hfs : fs.vol.Filed) (hwords : ∀ k < fs.count, (fs.files k).size < 2 ^ 32)
    (cs : List (Heap × Change)) (hok : ∀ pre c post, cs = pre ++ c :: post → (run change fs pre).1.ChangeOk c) (v : Vol)
    (hv : (run change fs cs).1.vol = v) :
    (∀ i, v.IsDirAt i → ∀ x ∈ v.entries i, x.inode ≠ 0 → x.inode < v.sb.inodeCount ∧ v.inUse x.inode = true) ∧
    (∀ i s j t, v.Allocated i → v.Allocated j → ptr v.disk (v.inode i) s ≠ 0 →
      ptr v.disk (v.inode i) s = ptr v.disk (v.inode j) t → i = j ∧ s = t) ∧
    (∀ i s, v.Allocated i → ptr v.disk (v.inode i) s ≠ 0 → v.used (ptr v.disk (v.inode i) s) = true) ∧
    v.sb.freeBlocks = clearCount (v.disk v.sb.blkBmp) v.sb.blockCount ∧
    v.sb.freeInodes = clearCount (v.disk v.sb.inoBmp) v.sb.inodeCount := by
  have hend := run_inv (P := Upright) (C := ChangeOk) (fun s c h hc => h.change c hc) cs fs ⟨hfs, hwords⟩ hok
  have hf : v.Filed := hv ▸ hend.filed
  exact ⟨hf.live, hf.sound.owned.once, hf.sound.owned.marked, hf.sound.freeBlocks, hf.sound.freeInodes⟩

def creatUnlink : List (Heap × Change) := [(calm, .creat [97]), (calm, .unlink 0 [97])]

theorem creatUnlink_ok : ∀ (pre : List (Heap × Change)) (c : Heap × Change) (post : List (Heap × Change)),
    creatUnlink = pre ++ c :: post → (run change (bare rootVol) pre).1.ChangeOk c := by
  refine splits_cons.2 ⟨⟨calm_ok, trivial⟩, splits_cons.2 ⟨?_, splits_nil⟩⟩
  set r := run change (bare rootVol) [(calm, .creat [97])]
  have hcount : r.1.vol.sb.inodeCount = 8 := by decide +kernel
  have hdirs : ∀ i < 8, (r.1.vol.inode i).isDir = true → i = 0 := by
    decide +kernel
  have hnone : r.1.vol.entriesBut 0 [97] 0 = [] := by decide +kernel
  refine ⟨calm_ok, ⟨⟨by decide +kernel, by decide +kernel⟩, by decide +kernel⟩, fun ino _ i hi _ x hx => ?_⟩
  obtain rfl := hdirs i (Nat.lt_of_lt_of_eq hi.1.1 hcount) hi.2
  exact absurd (hnone ▸ hx) (List.not_mem_nil)

theorem structure_kept_removed : (run change (bare rootVol) creatUnlink).1.vol.sb.freeInodes =
    clearCount ((run change (bare rootVol) creatUnlink).1.vol.disk (run change (bare rootVol) creatUnlink).1.vol.sb.inoBmp)
      (run change (bare rootVol) creatUnlink).1.vol.sb.inodeCount :=
  (structure_kept (bare rootVol) rootVol_filed (fun k hk => absurd hk (Nat.not_lt_zero k)) creatUnlink creatUnlink_ok _ rfl).2.2.2.2

def removeDot : Fs × List Bool := run change (bare rootVol) [(calm, .mkdir 0 [100]), (calm, .unlink 1 [46])]

/-- **`.` is an ordinary record**: removing it succeeds and frees the inode of the directory, which the root still names. -/
theorem dot_removed_dangles : removeDot.2 = [true, true] ∧ removeDot.1.vol.IsDirAt 0 ∧
    ∃ x ∈ removeDot.1.vol.entries 0, x.inode ≠ 0 ∧ removeDot.1.vol.inUse x.inode = false := by
  have hent : removeDot.1.vol.entries 0 = [⟨1, ftDir, [100]⟩] := by decide +kernel
  refine ⟨by decide +kernel, ⟨⟨by decide +kernel, by decide +kernel⟩, by decide +kernel⟩, ⟨1, ftDir, [100]⟩, ?_, by decide, by decide +kernel⟩
  rw [hent]
  exact List.mem_singleton.2 rfl

end Fs
end Noxis
