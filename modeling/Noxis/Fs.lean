import Noxis.Path
/-!
# Fs — NoxFS with its table of open files (`fs/noxfs/noxfs.c`)

`g_files` caches whole files: a `vfs_file_t` has the file's bytes in a `kmalloc` buffer, and the calls that change a file
change the buffer and then store all of it.  `Fs` is the mounted volume with that table.  A buffer is named by a pointer
that is never given out twice, 0 being `NULL` and 1 to 8 the static buffers of procfs, and `len` is what it was requested
with; a slot of the table keeps its pointer when the buffer is freed, and so does this model.  A name is 32 raw bytes, read
up to the first `NUL`.
-/
namespace Noxis

open Function

def noxfsMaxFiles : Nat := 24

structure VfsFile where
  name : Fin 32 → UInt8
  data : Nat
  size : Nat
  inode : Nat
  capacity : Nat

/-- A `kmalloc` buffer: the bytes it was requested with, and what it holds. -/
structure Buffer where
  len : Nat
  bytes : Nat → UInt8

structure Fs where
  vol : Vol
  files : Nat → VfsFile
  count : Nat
  bufs : Nat → Buffer
  next : Nat

def VfsFile.cname (f : VfsFile) : Name := (List.ofFn f.name).takeWhile (· != 0)

def roundUp (size : Nat) : Nat := (size + 511) % 2 ^ 32 / 512 * 512

namespace Fs

def setFile (fs : Fs) (k : Nat) (f : VfsFile) : Fs := { fs with files := update fs.files k f }

theorem setFile_setFile (fs : Fs) (k : Nat) (f g : VfsFile) : (fs.setFile k f).setFile k g = fs.setFile k g := by
  unfold setFile
  simp only [Function.update_idem]

def newBuf (fs : Fs) (len : Nat) (bytes : Nat → UInt8) : Fs :=
  { fs with bufs := update fs.bufs fs.next ⟨len, bytes⟩, next := fs.next + 1 }

/-! ## Loading -/

def loadBytes (size : Nat) : Nat := if size = 0 then 1 else roundUp size

/-- `f->data = _load_data(ino, &f->size)` for slot `k`; the answer is whether there is data. -/
def loadSlot (e : Heap) (fs : Fs) (k ino : Nat) : Fs × Bool :=
  match fs.vol.loadData e ino with
  | none => (fs.setFile k { fs.files k with data := 0 }, false)
  | some (size, none) => (fs.setFile k { fs.files k with data := 0, size := size }, false)
  | some (size, some bytes) =>
    if loadBytes size = 0 then (fs.setFile k { fs.files k with data := 0, size := size }, false)
    else ((fs.newBuf (loadBytes size) bytes).setFile k { fs.files k with data := fs.next, size := size }, true)

/-- A name of at most 31 bytes, and the `NUL` behind it, over what the field held. -/
def putName (old : Fin 32 → UInt8) (nm : Name) : Fin 32 → UInt8 :=
  fun j => if j.val < nm.length then nm.getD j 0 else if j.val = nm.length then 0 else old j

/-- `_dir_scan` and `noxfs_lookup`: the file `ino` in the next slot, with `capacity` computed from its size. -/
def cacheFile (e : Heap) (fs : Fs) (nm : Name) (ino : Nat) : Fs × Bool :=
  let named := fs.setFile fs.count { fs.files fs.count with name := putName (fs.files fs.count).name nm }
  let r := named.loadSlot e fs.count ino
  if r.2 then
    let f := r.1.files fs.count
    let cap := if roundUp f.size = 0 then 512 else roundUp f.size
    ({ r.1.setFile fs.count { f with inode := ino, capacity := cap } with count := fs.count + 1 }, true)
  else (r.1, false)

/-- The loop of `_dir_scan` over the records `rs`, the first of which is record `i`. -/
def scanEntries (e : Heap) : Nat → List Dirent → Fs → Fs
  | _, [], fs => fs
  | i, r :: rs, fs =>
    if fs.count < noxfsMaxFiles then
      if r.inode = 0 ∨ r.kind ≠ ftFile then scanEntries e (i + 1) rs fs
      else scanEntries e (i + 1) rs (fs.cacheFile (e.sub i) (r.name.take 31) r.inode).1
    else fs

/-- `_dir_scan`; `none` is an error. -/
def dirScan (e : Heap) (fs : Fs) (dir : Nat) : Option Fs :=
  match fs.vol.iread dir with
  | none => none
  | some n =>
    if n.isDir = false then none else
    match fs.vol.loadData (e.sub 0) dir with
    | some (size, some d) => some (scanEntries (e.sub 1) 0 ((List.range (size / 32)).map (direntAt d)) { fs with count := 0 })
    | _ => none

end Fs

/-- The superblock check of `noxfs_init`. -/
def Vol.mount (disk : Nat → Nat → UInt8) : Option Vol :=
  if leRead (disk 0) 0 4 = noxfsMagic then some ⟨disk, Sb.ofBlock (disk 0)⟩ else none

/-- `noxfs_init` over a table that holds zeros; `none` is an error. -/
def Fs.init (e : Heap) (disk : Nat → Nat → UInt8) : Option Fs :=
  match Vol.mount disk with
  | none => none
  | some v => Fs.dirScan e ⟨v, fun _ => ⟨fun _ => 0, 0, 0, 0, 0⟩, 0, fun _ => ⟨0, fun _ => 0⟩, 9⟩ v.sb.rootIno

namespace Fs

/-! ## noxfs_lookup -/

def baseName (path : List UInt8) : Name := (path.reverse.takeWhile (· != 47)).reverse

def cached (fs : Fs) (nm : List UInt8) : Option Nat := (List.range fs.count).find? fun i => (fs.files i).cname == nm

def lookup (e : Heap) (fs : Fs) (nm : List UInt8) : Fs × Option Nat :=
  match fs.cached nm with
  | some i => (fs, some i)
  | none =>
    match fs.vol.resolve (e.sub 0) fs.vol.sb.rootIno nm with
    | none => (fs, none)
    | some ino =>
      if ino = fs.vol.sb.rootIno then (fs, none) else
      match fs.vol.iread ino with
      | none => (fs, none)
      | some n =>
        if n.isFile = false then (fs, none)
        else if noxfsMaxFiles ≤ fs.count then (fs, none)
        else
          let r := fs.cacheFile (e.sub 1) ((baseName nm).take 31) ino
          (r.1, if r.2 then some fs.count else none)

/-! ## noxfs_write -/

def ensureCapacity (e : Heap) (fs : Fs) (k needed : Nat) : Fs × Status :=
  let f := fs.files k
  if needed ≤ f.capacity then (fs, .ok) else
  let cap := roundUp needed
  match e.kmallocOf 0 cap with
  | none => (fs, .oom)
  | some junk =>
    let bytes := fun x => if x < f.size then (fs.bufs f.data).bytes x else if x < cap then 0 else junk x
    ((fs.newBuf cap bytes).setFile k { f with data := fs.next, capacity := cap }, .ok)

/-- The copy loop: byte `i` of the data goes to index `offset + i`, in 32-bit arithmetic. -/
def pokeBytes (old : Nat → UInt8) (offset : Nat) : List UInt8 → Nat → Nat → UInt8
  | [], _ => old
  | b :: bs, i => pokeBytes (update old ((offset + i) % 2 ^ 32) b) offset bs (i + 1)

def write (e : Heap) (fs : Fs) (k offset : Nat) (data : List UInt8) : Fs × Option Nat :=
  if data = [] then (fs, some 0) else
  let needed := (offset + data.length) % 2 ^ 32
  let r := fs.ensureCapacity e k needed
  if r.2 ≠ .ok then (r.1, none) else
  let f := r.1.files k
  let buf := r.1.bufs f.data
  let bytes := pokeBytes buf.bytes offset data 0
  let size := if f.size < needed then needed else f.size
  let s := r.1.vol.storeData f.inode bytes size
  let fs' := { r.1.setFile k { f with size := size } with bufs := update r.1.bufs f.data { buf with bytes := bytes }, vol := s.1 }
  if s.2 = .ok then (fs', some data.length) else (fs', none)

/-! ## noxfs_creat -/

/-- The name of a new file: up to 31 bytes, and a `NUL` in the last place only. -/
def pokeName (old : Fin 32 → UInt8) (nm : Name) : Fin 32 → UInt8 :=
  fun j => if j.val = 31 then 0 else if j.val < nm.length then nm.getD j 0 else old j

def creat (e : Heap) (fs : Fs) (nm : Name) : Fs × Option Nat :=
  if noxfsMaxFiles ≤ fs.count then (fs, none) else
  match fs.lookup (e.sub 0) nm with
  | (fs, some _) => (fs, none)
  | (fs, none) =>
    match fs.vol.creatAt (e.sub 1) fs.vol.sb.rootIno nm with
    | (v, none) => ({ fs with vol := v }, none)
    | (v, some ino) =>
      let named := { fs with vol := v }.setFile fs.count { fs.files fs.count with name := pokeName (fs.files fs.count).name nm }
      match e.kmalloc 2 with
      | none => (named.setFile fs.count { named.files fs.count with data := 0 }, none)
      | some junk =>
        ({ (named.newBuf 512 (fun x => if x < 512 then 0 else junk x)).setFile fs.count
            ⟨(named.files fs.count).name, fs.next, 0, ino, 512⟩ with count := fs.count + 1 }, some fs.count)

/-! ## Removing -/

/-- The first slot of an inode is taken out of the table, and the later ones move up. -/
def evict (fs : Fs) (ino : Nat) : Fs :=
  match (List.range fs.count).find? (fun i => (fs.files i).inode == ino) with
  | none => fs
  | some i =>
    { fs with files := fun j => if i ≤ j ∧ j + 1 < fs.count then fs.files (j + 1) else fs.files j, count := fs.count - 1 }

/-- What `noxfs_unlink`, `noxfs_rmdir` and `noxfs_rename` do to the table for an inode that has been freed. -/
def evictFreed (fs : Fs) : Option Nat → Fs
  | none => fs
  | some ino => fs.evict ino

def unlink (e : Heap) (fs : Fs) (parent : Nat) (nm : Name) : Fs × Status :=
  let r := fs.vol.unlink e parent nm
  ({ fs with vol := r.1 }.evictFreed r.2.2, r.2.1)

def rmdir (e : Heap) (fs : Fs) (parent : Nat) (nm : Name) : Fs × Status :=
  let r := fs.vol.rmdir e parent nm
  ({ fs with vol := r.1 }.evictFreed r.2.2, r.2.1)

def rename (e : Heap) (fs : Fs) (srcParent : Nat) (srcName : Name) (dstParent : Nat) (dstName : Name) : Fs × Status :=
  let r := fs.vol.rename e srcParent srcName dstParent dstName
  ({ fs with vol := r.1 }.evictFreed r.2.2, r.2.1)

def mkdir (e : Heap) (fs : Fs) (parent : Nat) (nm : Name) : Fs × Option Nat :=
  ({ fs with vol := (fs.vol.mkdir e parent nm).1 }, (fs.vol.mkdir e parent nm).2)

end Fs
end Noxis
