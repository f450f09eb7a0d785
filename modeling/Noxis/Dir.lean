import Noxis.FileStore
/-!
# Dir — directories of a NoxFS volume (`fs/noxfs/noxfs.c`)

A directory is a file of 32-byte `noxfs_dirent_t` records; a record whose inode is 0 is skipped.  Here are the functions that
read and change directories on the volume: `_dir_lookup_name`, `_dir_add_entry`, `_dir_remove_entry`, `noxfs_resolve`, and what
`noxfs_creat_at`, `noxfs_mkdir`, `noxfs_unlink`, `noxfs_rmdir` and `noxfs_rename` do on disk.  The in-memory file table they
also keep is in `Fs`.  A name is a C string, the list of its bytes without the `NUL`.
-/
namespace Noxis

open Function

abbrev Name := List UInt8

/-- `kmalloc(n)`, which fails for `n = 0`. -/
def Heap.kmallocOf (e : Heap) (k n : Nat) : Option (Nat → UInt8) := if n = 0 then none else e.kmalloc k

/-! ## Records -/

/-- `noxfs_dirent_t`, as the code reads it: `name` is the `name_len` bytes of the name. -/
structure Dirent where
  inode : Nat
  kind : Nat
  name : Name
  deriving DecidableEq

def ftFile : Nat := 1
def ftDir : Nat := 2

def direntAt (d : Nat → UInt8) (k : Nat) : Dirent where
  inode := leRead d (32 * k) 4
  kind := (d (32 * k + 7)).toNat
  name := (List.range (d (32 * k + 6)).toNat).map fun j => d (32 * k + 8 + j)

/-- The record is live and has this name: the comparison loop has reached the end of both. -/
def Dirent.hit (nm : Name) (r : Dirent) : Bool := r.inode != 0 && r.name == nm

def findEntry (d : Nat → UInt8) (count : Nat) (nm : Name) : Option Nat :=
  (List.range count).find? fun k => (direntAt d k).hit nm

/-- The record `_dir_add_entry` writes at `off`; the name is cut at 23 bytes. -/
def putDirent (d : Nat → UInt8) (off ino kind : Nat) (nm : Name) : Nat → UInt8 :=
  let len := min nm.length 23
  let d := leWrite d off 4 ino
  let d := leWrite d (off + 4) 2 32
  let d := update d (off + 7) (UInt8.ofNat kind)
  let d := update d (off + 6) (UInt8.ofNat len)
  let d := fun x => if off + 8 ≤ x ∧ x < off + 8 + len then nm.getD (x - (off + 8)) 0 else d x
  update d (off + 8 + len) 0

/-- The data of a new directory: `.` and `..` in a zeroed block. -/
def dotData (ino parent : Nat) : Nat → UInt8 :=
  let d := leWrite (fun _ => 0) 0 4 ino
  let d := leWrite d 4 2 32
  let d := update d 6 1
  let d := update d 7 (UInt8.ofNat ftDir)
  let d := update d 8 46
  let d := leWrite d 32 4 parent
  let d := leWrite d 36 2 32
  let d := update d 38 2
  let d := update d 39 (UInt8.ofNat ftDir)
  let d := update d 40 46
  update d 41 46

def compact (d : Nat → UInt8) (k : Nat) : Nat → UInt8 := fun x => if x < 32 * k then d x else d (x + 32)

/-! ## Looking up -/

def Vol.dirLookupName (e : Heap) (v : Vol) (dir : Nat) (nm : Name) : Option Nat :=
  match v.iread dir with
  | none => none
  | some n =>
    if n.isDir = false then none else
    match v.loadData e dir with
    | some (sz, some d) =>
      match findEntry d (sz / 32) nm with
      | none => none
      | some k => if (direntAt d k).inode = 2 ^ 32 - 1 then none else some (direntAt d k).inode
    | _ => none

def nextComp (p : List UInt8) : Name := (p.takeWhile (· != 47)).take 31

/-- The components `noxfs_resolve` takes from a path, `n` at most. -/
def components : Nat → List UInt8 → List Name
  | 0, _ => []
  | n + 1, p =>
    let p := p.dropWhile (· == 47)
    if p = [] then [] else nextComp p :: components n (p.drop (nextComp p).length)

/-- The loop of `noxfs_resolve`, component by component; `..` is the root. -/
def Vol.walk (e : Heap) (v : Vol) : Nat → List Name → Option Nat
  | cur, [] => some cur
  | cur, c :: cs =>
    if c = [46] then v.walk (e.sub 1) cur cs
    else if c = [46, 46] then v.walk (e.sub 1) v.sb.rootIno cs
    else
      match v.dirLookupName (e.sub 0) cur c with
      | none => none
      | some ino => v.walk (e.sub 1) ino cs

def Vol.resolve (e : Heap) (v : Vol) (base : Nat) (path : List UInt8) : Option Nat :=
  v.walk e (if path.head? = some 47 then v.sb.rootIno else base) (components path.length path)

/-! ## Changing a directory -/

def Vol.dirAddEntry (e : Heap) (v : Vol) (dir : Nat) (nm : Name) (ino kind : Nat) : Vol × Status :=
  match v.iread dir with
  | none => (v, .io)
  | some n =>
    match v.loadData (e.sub 0) dir with
    | some (_, some old) =>
      match e.kmallocOf 1 (((n.size + 32) % 2 ^ 32 + 511) % 2 ^ 32 / 512 * 512) with
      | none => (v, .oom)
      | some junk =>
        v.storeData dir (putDirent (fun x => if x < n.size then old x else junk x) n.size ino kind nm) ((n.size + 32) % 2 ^ 32)
    | _ => (v, .oom)

def Vol.dirRemoveEntry (e : Heap) (v : Vol) (dir : Nat) (nm : Name) : Vol × Status :=
  match v.iread dir with
  | none => (v, .io)
  | some n =>
    if n.isDir = false then (v, .invalid) else
    match v.loadData (e.sub 0) dir with
    | some (sz, some d) =>
      match findEntry d (sz / 32) nm with
      | none => (v, .notFound)
      | some k =>
        match e.kmalloc 1 with
        | none => (v, .oom)
        | some junk =>
          v.storeData dir (fun x => if x < (sz / 32 - 1) * 32 then compact d k x else junk x) ((sz / 32 - 1) * 32)
    | _ => (v, .oom)

def Vol.creatAt (e : Heap) (v : Vol) (parent : Nat) (nm : Name) : Vol × Option Nat :=
  match v.ialloc modeFile with
  | none => (v, none)
  | some (v1, ino) =>
    let r := v1.dirAddEntry e parent nm ino ftFile
    if r.2 = .ok then (r.1, some ino) else (r.1, none)

def Vol.mkdir (e : Heap) (v : Vol) (parent : Nat) (nm : Name) : Vol × Option Nat :=
  if nm = [] then (v, none) else
  match v.dirLookupName (e.sub 0) parent nm with
  | some _ => (v, none)
  | none =>
    match v.ialloc modeDir with
    | none => (v, none)
    | some (v1, ino) =>
      match v1.balloc with
      | none => (v1, none)
      | some (v2, blk) =>
        let v3 := v2.put blk (dotData ino parent)
        match v3.iread ino with
        | none => (v3, none)
        | some n =>
          let w := v3.iwrite ino ((n.setBlock 0 blk).setSize 64)
          if w.2 ≠ .ok then (w.1, none) else
          let r := w.1.dirAddEntry (e.sub 1) parent nm ino ftDir
          if r.2 = .ok then (r.1, some ino) else (r.1, none)

/-! ## Removing -/

def Vol.bfreeNz (v : Vol) (b : Nat) : Vol := if b = 0 then v else v.bfree b

def Vol.freeDirect (n : Inode) : Nat → Vol → Vol
  | 0, v => v
  | k + 1, v => (Vol.freeDirect n k v).bfreeNz (n.block k)

def Vol.freeListed (ind : Nat) : Nat → Vol → Vol
  | 0, v => v
  | k + 1, v => (Vol.freeListed ind k v).bfreeNz (leRead ((Vol.freeListed ind k v).disk ind) (4 * k) 4)

/-- The blocks `noxfs_unlink` frees with an inode: those of its size, and the indirect block. -/
def Vol.freeBlocksOf (v : Vol) (n : Inode) : Vol :=
  let v := Vol.freeDirect n (min (blocksFor n.size) 10) v
  if n.indirect = 0 then v else (Vol.freeListed n.indirect (min (blocksFor n.size - 10) 128) v).bfree n.indirect

/-- What `noxfs_unlink` does on disk; the last component is the inode that was freed, if one was. -/
def Vol.unlink (e : Heap) (v : Vol) (parent : Nat) (nm : Name) : Vol × Status × Option Nat :=
  match v.dirLookupName (e.sub 0) parent nm with
  | none => (v, .notFound, none)
  | some ino =>
    if ino = v.sb.rootIno then (v, .invalid, none) else
    match v.iread ino with
    | none => (v, .io, none)
    | some n =>
      if n.isDir = true ∧ 64 < n.size then (v, .invalid, none) else
      let r := v.dirRemoveEntry (e.sub 1) parent nm
      if r.2 ≠ .ok then (r.1, r.2, none) else
      match r.1.iread ino with
      | none => (r.1, .io, none)
      | some n =>
        let n := if 0 < n.links then n.setLinks (n.links - 1) else n
        if n.links = 0 then ((r.1.freeBlocksOf n).ifree ino, .ok, some ino) else ((r.1.iwrite ino n).1, .ok, none)

def Vol.rmdir (e : Heap) (v : Vol) (parent : Nat) (nm : Name) : Vol × Status × Option Nat :=
  match v.dirLookupName (e.sub 0) parent nm with
  | none => (v, .notFound, none)
  | some ino =>
    match v.iread ino with
    | none => (v, .io, none)
    | some n =>
      if n.isDir = false then (v, .invalid, none)
      else if 64 < n.size then (v, .invalid, none)
      else v.unlink (e.sub 1) parent nm

/-- `noxfs_rename` on disk: the new entry first, then what it replaces, then the old entry. -/
def Vol.rename (e : Heap) (v : Vol) (srcParent : Nat) (srcName : Name) (dstParent : Nat) (dstName : Name) :
    Vol × Status × Option Nat :=
  match v.dirLookupName (e.sub 0) srcParent srcName with
  | none => (v, .notFound, none)
  | some ino =>
    match v.iread ino with
    | none => (v, .io, none)
    | some n =>
      let r := v.dirAddEntry (e.sub 1) dstParent dstName ino (if n.isDir then ftDir else ftFile)
      if r.2 ≠ .ok then (r.1, r.2, none) else
      let u := match r.1.dirLookupName (e.sub 2) dstParent dstName with
        | none => (r.1, none)
        | some old => if old = ino then (r.1, none) else
          ((r.1.unlink (e.sub 3) dstParent dstName).1, (r.1.unlink (e.sub 3) dstParent dstName).2.2)
      let d := u.1.dirRemoveEntry (e.sub 4) srcParent srcName
      (d.1, d.2, u.2)

end Noxis
