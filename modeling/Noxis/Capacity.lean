import Noxis.Fs
import Noxis.Cwd
/-!
# Capacity — a cached file's buffer against the capacity it claims

`capacity` is computed next to the allocation, not from it: `_load_data` asks for one byte when the file is empty, and the
callers then claim a whole block.  `Fits` is what an entry of the table promises, and every call keeps it as long as no
empty file is loaded from disk (`LoadsData`); a write through an entry that fits stays inside its buffer.
-/
namespace Noxis

open List Option Function
namespace Fs

/-- What `kmalloc` makes of a request: multiples of 16. -/
def up16 (n : Nat) : Nat := (n + 15) / 16 * 16

structure Whole (f : VfsFile) : Prop where
  size : f.size ≤ f.capacity
  blocks : 512 ∣ f.capacity
  word : f.capacity < 2 ^ 32

/-- The entry is whole and, if `fit`, its capacity is within what was allocated for its data. -/
structure Fits (fit : Prop) (bufs : Nat → Buffer) (next : Nat) (f : VfsFile) : Prop extends Whole f where
  capacity : fit → f.capacity ≤ up16 (bufs f.data).len
  old : f.data < next

def AllFit (fit : Prop) (fs : Fs) : Prop := ∀ i < fs.count, Fits fit fs.bufs fs.next (fs.files i)

inductive Op where
  | lookup (nm : List UInt8)
  | creat (nm : Name)
  | write (k offset : Nat) (data : List UInt8)
  | unlink (parent : Nat) (nm : Name)

def step (fs : Fs) (op : Heap × Op) : Fs × Unit :=
  match op.2 with
  | .lookup nm => ((fs.lookup op.1 nm).1, ())
  | .creat nm => ((fs.creat op.1 nm).1, ())
  | .write k offset data => ((fs.write op.1 k offset data).1, ())
  | .unlink parent nm => ((fs.unlink op.1 parent nm).1, ())

def LoadsData (fs : Fs) (e : Heap) (nm : List UInt8) : Prop :=
  fs.cached nm = none → ∀ ino, fs.vol.resolve (e.sub 0) fs.vol.sb.rootIno nm = some ino → (fs.vol.inode ino).size ≠ 0

/-- No empty file is loaded, and a write goes through an entry of the table, to indices that do not wrap. -/
def StepOk (fs : Fs) (op : Heap × Op) : Prop :=
  match op.2 with
  | .lookup nm => fs.LoadsData op.1 nm
  | .creat nm => fs.LoadsData (op.1.sub 0) nm
  | .write k offset data => k < fs.count ∧ offset + data.length < 2 ^ 32
  | .unlink _ _ => True

def RootLoads (e : Heap) (v : Vol) : Prop :=
  ∀ size d, v.loadData (e.sub 0) v.sb.rootIno = some (size, some d) → ∀ k < size / 32, (direntAt d k).inode ≠ 0 →
    (direntAt d k).kind = ftFile → (v.inode (direntAt d k).inode).size ≠ 0

section Loading

variable {fit : Prop} {fs : Fs} {e : Heap}

theorem roundUp_ge {size : Nat} (hlt : size < 2 ^ 32) (h0 : roundUp size ≠ 0) : size ≤ roundUp size := by
  unfold roundUp at *
  omega

theorem roundUp_lt (n : Nat) : roundUp n < 2 ^ 32 := by
  unfold roundUp
  omega

theorem whole_roundUp {f : VfsFile} {n : Nat} (hcap : f.capacity = roundUp n) (hsize : f.size ≤ roundUp n) : Whole f := by
  refine ⟨hcap ▸ hsize, ?_, hcap ▸ roundUp_lt n⟩
  rw [hcap]
  exact Nat.dvd_mul_left _ _

theorem up16_ge (n : Nat) : n ≤ up16 n := by
  unfold up16
  omega

theorem AllFit.setNext (h : fs.AllFit fit) (f : VfsFile) : (fs.setFile fs.count f).AllFit fit := by
  intro i hi
  have hne : i ≠ fs.count := ne_of_lt hi
  dsimp only [setFile]
  rw [update_of_ne hne]
  exact h i hi

theorem fits_put {k n len : Nat} {f : VfsFile} (bytes : Nat → UInt8)
    (h : ∀ i < n, i ≠ k → Fits fit fs.bufs fs.next (fs.files i)) (hdata : f.data = fs.next) (hf : k < n → Whole f)
    (hcap : fit → f.capacity ≤ up16 len) :
    ∀ i < n, Fits fit (update fs.bufs fs.next ⟨len, bytes⟩) (fs.next + 1) (update fs.files k f i) := by
  intro i hi
  by_cases hik : i = k
  · rw [hik, update_self]
    refine ⟨hf (hik ▸ hi), ?_, by omega⟩
    rw [hdata, update_self]
    exact hcap
  rw [update_of_ne hik]
  have hi' := h i hi hik
  refine ⟨hi'.toWhole, ?_, Nat.lt_succ_of_lt hi'.old⟩
  rw [update_of_ne (ne_of_lt hi'.old)]
  exact hi'.capacity

theorem AllFit.push (h : fs.AllFit fit) {f : VfsFile} (len : Nat) (bytes : Nat → UInt8) (hdata : f.data = fs.next)
    (hf : Whole f) (hcap : fit → f.capacity ≤ up16 len) :
    ({ (fs.newBuf len bytes).setFile fs.count f with count := fs.count + 1 } : Fs).AllFit fit :=
  fits_put bytes (fun i hi hne => h i (Nat.lt_of_le_of_ne (Nat.le_of_lt_succ hi) hne)) hdata (fun _ => hf) hcap

theorem loadData_size {v : Vol} {ino size : Nat} {o : Option (Nat → UInt8)} (h : v.loadData e ino = some (size, o)) :
    size = (v.inode ino).size ∧ size < 2 ^ 32 := by
  unfold Vol.loadData at h
  rw [map_eq_some_iff] at h
  obtain ⟨n, hn, hx⟩ := h
  have hinode : n = v.inode ino := by
    unfold Vol.iread at hn
    split at hn
    · cases hn
    · exact (some.inj hn).symm
  have hlt : n.size < 2 ^ 32 := leRead_lt n 4 6
  subst hinode
  split at hx
  · rename_i h0
    have hz := (Prod.mk.inj hx).1
    omega
  · have hz := (Prod.mk.inj hx).1
    omega

/-- **A file that is not empty gets a buffer as large as its capacity.** -/
theorem AllFit.cacheFile (h : fs.AllFit fit) (nm : Name) {ino : Nat} (hne : fit → (fs.vol.inode ino).size ≠ 0) :
    (fs.cacheFile e nm ino).1.AllFit fit := by
  unfold Fs.cacheFile
  dsimp only
  have h1 := h.setNext { fs.files fs.count with name := putName (fs.files fs.count).name nm }
  generalize hfs1 : fs.setFile fs.count { fs.files fs.count with name := putName (fs.files fs.count).name nm } = fs1 at *
  have hcount : fs1.count = fs.count := by subst hfs1; rfl
  have hvol : fs1.vol = fs.vol := by subst hfs1; rfl
  rw [← hcount]
  unfold Fs.loadSlot
  split
  · exact h1.setNext _
  · exact h1.setNext _
  · rename_i size bytes hx
    obtain ⟨hsize, hlt⟩ := loadData_size hx
    rw [hvol] at hsize
    split
    · exact h1.setNext _
    rename_i h0
    rw [if_pos rfl]
    rw [setFile_setFile]
    simp only [setFile, update_self]
    unfold loadBytes at h0 ⊢
    by_cases hz : size = 0
    · -- one byte is asked for, a block claimed
      refine h1.push _ bytes rfl ?_ (fun hfit => absurd (hsize.symm.trans hz) (hne hfit))
      rw [hz]
      exact ⟨Nat.zero_le 512, Nat.dvd_refl 512, (by decide : 512 < 2 ^ 32)⟩
    · rw [if_neg hz] at h0 ⊢
      rw [if_neg h0]
      exact h1.push _ bytes rfl (whole_roundUp rfl (roundUp_ge hlt h0)) (fun _ => up16_ge _)

theorem cacheFile_vol (e : Heap) (fs : Fs) (nm : Name) (ino : Nat) : (fs.cacheFile e nm ino).1.vol = fs.vol := by
  unfold Fs.cacheFile Fs.loadSlot
  dsimp only
  split
  · rfl
  · rfl
  · split <;> rfl

theorem AllFit.scanEntries (e : Heap) : ∀ (rs : List Dirent) (i : Nat) (fs : Fs), fs.AllFit fit →
    (fit → ∀ r ∈ rs, r.inode ≠ 0 → r.kind = ftFile → (fs.vol.inode r.inode).size ≠ 0) → (scanEntries e i rs fs).AllFit fit
  | [], _, _, h, _ => h
  | r :: rs, i, fs, h, hne => by
    have hrest : fit → ∀ r ∈ rs, r.inode ≠ 0 → r.kind = ftFile → (fs.vol.inode r.inode).size ≠ 0 :=
      fun hfit r hr => hne hfit r (mem_cons_of_mem _ hr)
    unfold Fs.scanEntries
    split
    · split
      · exact AllFit.scanEntries e rs (i + 1) fs h hrest
      · rename_i hr
        push Not at hr
        refine AllFit.scanEntries e rs (i + 1) _ (h.cacheFile _ (fun hfit => hne hfit r mem_cons_self hr.1 hr.2)) ?_
        rw [cacheFile_vol]
        exact hrest
    · exact h

theorem init_fit {disk : Nat → Nat → UInt8} (hinit : Fs.init e disk = some fs)
    (hroot : fit → ∀ v, Vol.mount disk = some v → RootLoads e v) : fs.AllFit fit := by
  unfold Fs.init at hinit
  split at hinit
  · cases hinit
  rename_i v hv
  unfold Fs.dirScan at hinit
  split at hinit
  · cases hinit
  split at hinit
  · cases hinit
  · split at hinit
    · rename_i size d hload
      obtain rfl := some.inj hinit
      refine AllFit.scanEntries _ _ _ _ (fun i hi => absurd hi (Nat.not_lt_zero i)) (fun hfit r hr h0 hk => ?_)
      obtain ⟨k, hkr, rfl⟩ := mem_map.1 hr
      exact hroot hfit v hv size d hload k (mem_range.1 hkr) h0 hk
    · cases hinit

theorem AllFit.lookup (h : fs.AllFit fit) {nm : List UInt8} (hne : fit → fs.LoadsData e nm) : (fs.lookup e nm).1.AllFit fit := by
  unfold Fs.lookup
  split
  · exact h
  rename_i hc
  split
  · exact h
  · rename_i ino hino
    repeat' split
    all_goals first | exact h | exact h.cacheFile _ (fun hfit => hne hfit hc ino hino)

end Loading

section Writing

variable {fit : Prop} {fs : Fs} {e : Heap} {k : Nat}

theorem AllFit.ensureCapacity (h : fs.AllFit fit) {needed : Nat} (hlt : needed < 2 ^ 32) :
    let r := fs.ensureCapacity e k needed
    r.1.AllFit fit ∧ r.1.count = fs.count ∧ (r.2 = .ok → needed ≤ (r.1.files k).capacity) := by
  unfold Fs.ensureCapacity
  dsimp only
  split
  · rename_i hcap
    exact ⟨h, rfl, fun _ => hcap⟩
  rename_i hcap
  split
  · exact ⟨h, rfl, fun hx => by cases hx⟩
  rename_i junk hj
  have h0 : roundUp needed ≠ 0 := fun hx => by
    rw [Heap.kmallocOf, if_pos hx] at hj
    cases hj
  have hge := roundUp_ge hlt h0
  refine ⟨?_, rfl, fun _ => by dsimp only [setFile, newBuf]; rw [update_self]; exact hge⟩
  refine fits_put _ (fun i hi _ => h i hi) rfl (fun hk => whole_roundUp rfl ?_) (fun _ => up16_ge _)
  have hsize := (h k hk).size
  dsimp only
  omega

theorem Fits.poke {bufs : Nat → Buffer} {next : Nat} {f : VfsFile} (h : Fits fit bufs next f) (p : Nat) (bytes : Nat → UInt8) :
    Fits fit (update bufs p { bufs p with bytes := bytes }) next f := by
  refine ⟨h.toWhole, ?_, h.old⟩
  by_cases hp : f.data = p
  · rw [hp, update_self, ← hp]
    exact h.capacity
  · rw [update_of_ne hp]
    exact h.capacity

theorem AllFit.write (h : fs.AllFit fit) (offset : Nat) (data : List UInt8) : (fs.write e k offset data).1.AllFit fit := by
  unfold Fs.write
  split
  · exact h
  dsimp only
  obtain ⟨h1, hcount, hcap⟩ := h.ensureCapacity (e := e) (k := k)
    (Nat.mod_lt (offset + data.length) (by decide : 0 < 2 ^ 32))
  generalize fs.ensureCapacity e k ((offset + data.length) % 2 ^ 32) = r at *
  split
  · exact h1
  rename_i hok
  have hroom := hcap (not_not.1 hok)
  rw [apply_ite Prod.fst, ite_self]
  intro i hi
  have hfi := (h1 i hi).poke (r.1.files k).data (pokeBytes (r.1.bufs (r.1.files k).data).bytes offset data 0)
  dsimp only [setFile]
  by_cases hik : i = k
  · rw [hik] at hfi ⊢
    rw [update_self]
    refine ⟨⟨?_, hfi.blocks, hfi.word⟩, hfi.capacity, hfi.old⟩
    have hsize := hfi.size
    dsimp only
    split <;> omega
  · rw [update_of_ne hik]
    exact hfi

theorem AllFit.creat (h : fs.AllFit fit) {nm : Name} (hne : fit → fs.LoadsData (e.sub 0) nm) : (fs.creat e nm).1.AllFit fit := by
  unfold Fs.creat
  have hl := h.lookup hne
  split
  · exact h
  split
  · rename_i fs1 _ hx
    rw [hx] at hl
    exact hl
  · rename_i fs1 hx
    rw [hx] at hl
    split
    · exact hl
    rename_i v ino hc
    have hv : ({ fs1 with vol := v } : Fs).AllFit fit := hl
    have hnamed := hv.setNext { fs1.files fs1.count with name := pokeName (fs1.files fs1.count).name nm }
    dsimp only
    split
    · exact hnamed.setNext _
    · exact hnamed.push 512 _ rfl ⟨Nat.zero_le 512, Nat.dvd_refl 512, (by decide : 512 < 2 ^ 32)⟩ (fun _ => up16_ge 512)

theorem AllFit.unlink (h : fs.AllFit fit) (parent : Nat) (nm : Name) : (fs.unlink e parent nm).1.AllFit fit := by
  unfold Fs.unlink Fs.evictFreed
  dsimp only
  split
  · exact h
  unfold Fs.evict
  split
  · exact h
  intro j hj
  dsimp only at hj ⊢
  split
  · exact h (j + 1) (by omega)
  · exact h j (by omega)

end Writing

theorem AllFit.step {fit : Prop} {fs : Fs} (h : fs.AllFit fit) (op : Heap × Op) (hok : fit → fs.StepOk op) :
    (fs.step op).1.AllFit fit := by
  obtain ⟨e, op⟩ := op
  cases op with
  | lookup nm => exact h.lookup hok
  | creat nm => exact h.creat hok
  | write k offset data => exact h.write offset data
  | unlink parent nm => exact h.unlink parent nm

/-- **Every cached file's buffer is as large as it claims**, in every run from `noxfs_init` that loads no empty file: the
size is within the capacity and the capacity within the allocation.  And every write stays inside the buffer it has made
sure of. -/
theorem cached_buffers_fit (e : Heap) (disk : Nat → Nat → UInt8) (fs : Fs) (hinit : Fs.init e disk = some fs)
    (hroot : ∀ v, Vol.mount disk = some v → RootLoads e v) (ops : List (Heap × Op))
    (hok : ∀ pre op post, ops = pre ++ op :: post → (run step fs pre).1.StepOk op) :
    (∀ i < (run step fs ops).1.count, ((run step fs ops).1.files i).size ≤ ((run step fs ops).1.files i).capacity ∧
      ((run step fs ops).1.files i).capacity ≤ up16 ((run step fs ops).1.bufs ((run step fs ops).1.files i).data).len) ∧
    ∀ pre e' k offset data post, ops = pre ++ (e', .write k offset data) :: post →
      ((run step fs pre).1.ensureCapacity e' k ((offset + data.length) % 2 ^ 32)).2 = .ok → ∀ i < data.length,
        (offset + i) % 2 ^ 32 < up16 (((run step fs pre).1.ensureCapacity e' k ((offset + data.length) % 2 ^ 32)).1.bufs
          (((run step fs pre).1.ensureCapacity e' k ((offset + data.length) % 2 ^ 32)).1.files k).data).len := by
  have hrun : ∀ is, (∀ pre op post, is = pre ++ op :: post → (run step fs pre).1.StepOk op) → (run step fs is).1.AllFit True :=
    fun is his => run_inv (P := AllFit True) (C := StepOk) (fun _ op h hop => h.step op (fun _ => hop)) is fs
      (init_fit hinit (fun _ => hroot)) his
  refine ⟨fun i hi => ⟨(hrun ops hok i hi).size, (hrun ops hok i hi).capacity trivial⟩, ?_⟩
  intro pre e' k offset data post hops hensured i hi
  have hfit := hrun pre (fun p op q hp => hok p op (q ++ (e', .write k offset data) :: post) (by
    rw [hops, hp, append_assoc, cons_append]))
  obtain ⟨hk, hlt⟩ := hok pre _ post hops
  rw [Nat.mod_eq_of_lt hlt] at hensured ⊢
  obtain ⟨h1, hcount, hcap⟩ := hfit.ensureCapacity (e := e') (k := k) hlt
  have hroom := hcap hensured
  have hfk := (h1 k (by rw [hcount]; exact hk)).capacity trivial
  rw [Nat.mod_eq_of_lt (by omega)]
  omega

def emptyDisk : Nat → Nat → UInt8 := rootVol.sbWrite.disk

def emptyFs : Fs := (Fs.init calm emptyDisk).get (by decide +kernel)

/-- A file is created and written. -/
theorem cached_buffers_fit_written : (run step emptyFs [(calm, .creat [97]), (calm, .write 0 0 [1, 2, 3])]).1.count = 1 ∧
    (((run step emptyFs [(calm, .creat [97]), (calm, .write 0 0 [1, 2, 3])]).1.files 0).size ≤
      ((run step emptyFs [(calm, .creat [97]), (calm, .write 0 0 [1, 2, 3])]).1.files 0).capacity ∧
    ((run step emptyFs [(calm, .creat [97]), (calm, .write 0 0 [1, 2, 3])]).1.files 0).capacity ≤
      up16 ((run step emptyFs [(calm, .creat [97]), (calm, .write 0 0 [1, 2, 3])]).1.bufs
        ((run step emptyFs [(calm, .creat [97]), (calm, .write 0 0 [1, 2, 3])]).1.files 0).data).len) := by
  have hcount : (run step emptyFs [(calm, .creat [97]), (calm, .write 0 0 [1, 2, 3])]).1.count = 1 := by decide +kernel
  refine ⟨hcount, (cached_buffers_fit calm emptyDisk emptyFs (some_get _).symm ?_ _ ?_).1 0 (by rw [hcount]; decide)⟩
  · intro v hv size d hload k hk
    have hsize : (Vol.mount emptyDisk).map (fun v => (v.inode v.sb.rootIno).size) = some 0 := by decide +kernel
    rw [hv] at hsize
    have hzero : size = 0 := (loadData_size hload).1.trans (some.inj hsize)
    rw [hzero] at hk
    exact absurd hk (Nat.not_lt_zero k)
  · refine splits_cons.2 ⟨fun _ ino hino => ?_, splits_cons.2 ⟨?_, splits_nil⟩⟩
    · have hnone : emptyFs.vol.resolve ((calm.sub 0).sub 0) emptyFs.vol.sb.rootIno [97] = none := by decide +kernel
      exact absurd (hnone.symm.trans hino) (by simp)
    · exact (by decide +kernel : 0 < (run step emptyFs [(calm, .creat [97])]).1.count ∧ 0 + [1, 2, 3].length < 2 ^ 32)

/-- **An empty file on disk**: `noxfs_init` claims 512 bytes for a buffer of one, and the write of twenty bytes that follows
finds room. -/
theorem empty_file_overclaims : ((Fs.init calm (rootVol.creatAt calm 0 [97]).1.disk).map fun fs =>
      (fs.count, (fs.files 0).size, (fs.files 0).capacity, up16 (fs.bufs (fs.files 0).data).len)) = some (1, 0, 512, 16) ∧
    ((Fs.init calm (rootVol.creatAt calm 0 [97]).1.disk).map fun fs =>
      ((fs.write calm 0 0 (List.replicate 20 1)).2, up16 ((fs.write calm 0 0 (List.replicate 20 1)).1.bufs
        ((fs.write calm 0 0 (List.replicate 20 1)).1.files 0).data).len)) = some (some 20, 16) :=
  ⟨by decide +kernel, by decide +kernel⟩

end Fs
end Noxis
