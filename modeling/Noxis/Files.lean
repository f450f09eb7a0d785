import Noxis.Fs
import Noxis.Fd
/-!
# Files — the calls on files (`proc/fd.c`, `proc/syscalls.c`, `fs/vfs/vfs.c`, `fs/procfs/procfs.c`)

`Files` puts the descriptor tables of the processes over the file table of NoxFS.  A descriptor holds a pointer to a
`vfs_file_t` and an offset of its own.  The objects of the procfs pool stand behind the slots of `g_files`
(`FileRef.slot`), with their static buffers; a device file is known by its inode number and its object is not used after
`sys_open`, so the pool of devfs is left out.  What a call on a console, pipe or device does to those is left out too: it is
answered with `none` here.  The volume is mounted, so `_use_noxfs` is set.
-/
namespace Noxis

open Function

def oCreat : Nat := 0x40
def oTrunc : Nat := 0x200

/-- Where the `vfs_file_t` stands; devfs objects are not kept. -/
def FileRef.slot : FileRef → Nat
  | .nox i => i
  | .proc i => noxfsMaxFiles + i
  | .dev i => noxfsMaxFiles + 8 + i

/-- What a call finds outside: the answers of the heap, what a generator of procfs would write, and `scheduler_find`. -/
structure Env where
  heap : Heap
  text : List UInt8
  alive : Nat → Bool

structure Files where
  fd : FdSys
  fs : Fs
  cwdIno : Nat → Nat
  poolNext : Nat

/-! ## Looking up -/

/-- `procfs_lookup`: whether the path, which is under `/proc`, is a file's. -/
def procfsHasFile (alive : Nat → Bool) (path : List UInt8) : Bool :=
  match path.drop 5 with
  | 47 :: rest =>
    rest == [117, 112, 116, 105, 109, 101] || rest == [109, 101, 109, 105, 110, 102, 111] ||
      (rest.takeWhile isDigit != [] && rest.dropWhile isDigit == [47, 115, 116, 97, 116, 117, 115] &&
        alive (parseUint (rest.takeWhile isDigit)))
  | _ => false

/-- `devfs_lookup`: the device the path, which is under `/dev`, names. -/
def devfsLookup (path : List UInt8) : Option Nat :=
  match path.drop 4 with
  | 47 :: rest => devfsInode rest
  | _ => none

def devKind (ino : Nat) : Option Found :=
  if ino = devNullIno then some .null
  else if ino = devZeroIno then some .zero
  else if ino = devTtyIno then some .tty
  else if ino = devRandomIno then some .random
  else none

namespace Files

def poolData (i : Nat) : Nat := 1 + i

local instance : NeZero 32 := ⟨by decide⟩

/-- `_pool_alloc` and the generator behind it, which writes `text`, 511 bytes of it at most. -/
def genFile (s : Files) (text : List UInt8) : Files × FileRef :=
  let i := s.poolNext
  let k := FileRef.slot (.proc i)
  let text := text.take 511
  let old := s.fs.bufs (poolData i)
  let f : VfsFile := ⟨update (s.fs.files k).name 0 0, poolData i, text.length, 0, 512⟩
  let bufs := update s.fs.bufs (poolData i) ⟨512, fun x => if x < text.length then text.getD x 0 else old.bytes x⟩
  ({ s with fs := { s.fs.setFile k f with bufs := bufs }, poolNext := (i + 1) % 8 }, .proc i)

def slotOfInode (fs : Fs) (ino : Nat) : Option Nat := (List.range fs.count).find? fun i => (fs.files i).inode == ino

def foundSlot (fs : Fs) (k : Nat) : Found := (devKind (fs.files k).inode).getD (.file (.nox k))

/-- `vfs_lookup_at` for a path that is not under `/proc` or `/dev`; the answer is the slot. -/
def noxLookupAt (h : Heap) (fs : Fs) (cwd : Nat) (path : List UInt8) : Fs × Option Nat :=
  if path.head? = some 47 then fs.lookup h path else
  match fs.vol.resolve (h.sub 0) cwd path with
  | none => (fs, none)
  | some ino =>
    match slotOfInode fs ino with
    | some k => (fs, some k)
    | none => fs.lookup (h.sub 1) (Fs.baseName path)

def vfsLookupAt (e : Env) (s : Files) (cwd : Nat) (path : List UInt8) : Files × Option Found :=
  if procfsIsProcPath path then
    if procfsHasFile e.alive path then ((s.genFile e.text).1, some (.file (s.genFile e.text).2)) else (s, none)
  else if devfsIsDevPath path then (s, (devfsLookup path).bind devKind)
  else
    let r := noxLookupAt e.heap s.fs cwd path
    ({ s with fs := r.1 }, r.2.map (foundSlot r.1))

/-! ## sys_open -/

def vfsCreat (h : Heap) (s : Files) (path : List UInt8) : Files × Option Found :=
  let r := s.fs.creat h path
  ({ s with fs := r.1 }, r.2.map (foundSlot r.1))

def truncate (s : Files) : Found → Files
  | .file f => { s with fs := s.fs.setFile f.slot { s.fs.files f.slot with size := 0 } }
  | _ => s

/-- The lookup of `sys_open`, and the file it creates if there is none. -/
def openLookup (e : Env) (s : Files) (p : Nat) (path : List UInt8) (flags : Nat) : Files × Option Found :=
  let r := s.vfsLookupAt { e with heap := e.heap.sub 0 } (s.cwdIno p) path
  if r.2.isNone ∧ flags &&& oCreat ≠ 0 then r.1.vfsCreat (e.heap.sub 1) path else r

def sysOpen (e : Env) (s : Files) (p : Nat) (path : List UInt8) (flags : Nat) : Files × Int :=
  match s.openLookup e p path flags with
  | (s, none) => (s, -1)
  | (s, some f) =>
    let s := if flags &&& oTrunc ≠ 0 then s.truncate f else s
    ({ s with fd := (s.fd.sysOpen p (some f)).1 }, (s.fd.sysOpen p (some f)).2)

/-! ## Reading and writing -/

inductive Answer where
  | num (n : Int)
  | bytes (d : List UInt8)
  | elsewhere
  deriving DecidableEq

/-- The descriptor a call on `fd` works on: a `/dev/tty` descriptor is replaced by `tty`, standard input or output. -/
def target (s : Files) (p : Nat) (fd : Int) (tty : Nat) : Option Nat :=
  (s.fd.fdGet p fd).map fun n => if (s.fd.fds (p, n)).kind = .devTty then tty else n

def int32 (n : Nat) : Int := if n % 2 ^ 32 < 2 ^ 31 then (n % 2 ^ 32 : Nat) else (n % 2 ^ 32 : Nat) - 2 ^ 32

def readBytes (fs : Fs) (k offset len : Nat) : List UInt8 :=
  (List.range (min len ((fs.files k).size - offset))).map fun x => (fs.bufs (fs.files k).data).bytes (offset + x)

/-- `sys_read` on a file; the answer is what was read. -/
def sysRead (s : Files) (p : Nat) (fd : Int) (len : Nat) : Files × Answer :=
  match s.target p fd 0 with
  | none => (s, .num (-1))
  | some n =>
    match (s.fd.fds (p, n)).kind with
    | .file f =>
      let got := readBytes s.fs f.slot (s.fd.fds (p, n)).offset len
      ({ s with fd := s.fd.setFd p n { s.fd.fds (p, n) with offset := (s.fd.fds (p, n)).offset + got.length } }, .bytes got)
    | _ => (s, .elsewhere)

/-- `sys_write`; `vfs_write_file` takes the length as `uint32_t`. -/
def sysWrite (h : Heap) (s : Files) (p : Nat) (fd : Int) (data : List UInt8) : Files × Answer :=
  match s.target p fd 1 with
  | none => (s, .num (-1))
  | some n =>
    match (s.fd.fds (p, n)).kind with
    | .file f =>
      let x := s.fd.fds (p, n)
      let r := s.fs.write h f.slot x.offset (data.take (data.length % 2 ^ 32))
      let s := { s with fs := r.1 }
      match r.2 with
      | none => (s, .num (-1))
      | some w =>
        if 0 < int32 w then ({ s with fd := s.fd.setFd p n { x with offset := (x.offset + w) % 2 ^ 32 } }, .num (int32 w))
        else (s, .num (int32 w))
    | _ => (s, .elsewhere)

/-- What `sys_lseek` counts from; `whence` is 1 for `SEEK_CUR` and 2 for `SEEK_END`, and anything else is `SEEK_SET`. -/
def seekBase (s : Files) (p n : Nat) (f : FileRef) (whence : Int) : Int :=
  if whence = 1 then ((s.fd.fds (p, n)).offset : Int) else if whence = 2 then ((s.fs.files f.slot).size : Int) else 0

/-- `sys_lseek`: the sum is an `int64_t`, the offset of a descriptor a `uint32_t`. -/
def sysLseek (s : Files) (p : Nat) (fd : Int) (off whence : Int) : Files × Int :=
  match s.fd.fdGet p fd with
  | none => (s, -1)
  | some n =>
    match (s.fd.fds (p, n)).kind with
    | .file f =>
      let pos := (s.seekBase p n f whence + off).bmod (2 ^ 64)
      if pos < 0 then (s, -1)
      else ({ s with fd := s.fd.setFd p n { s.fd.fds (p, n) with offset := pos.toNat % 2 ^ 32 } }, pos)
    | _ => (s, -1)

end Files

/-! ## Removing and renaming -/

/-- `path_split`: the parent directory, 127 bytes of it at most, and the name, of 31 bytes at most. -/
def pathSplit (path : List UInt8) : List UInt8 × Name :=
  let base := Fs.baseName path
  if base.length = path.length then ([46], path.take 31)
  else if base.length + 1 = path.length then ([47], base.take 31)
  else ((path.take (path.length - base.length - 1)).take 127, base.take 31)

namespace Files

def sysUnlink (h : Heap) (s : Files) (p : Nat) (path : List UInt8) : Files × Int :=
  if path = [] then (s, -1) else
  match s.fs.vol.vfsResolveIno (h.sub 0) (s.cwdIno p) (pathSplit path).1 with
  | none => (s, -1)
  | some par =>
    let r := s.fs.unlink (h.sub 1) par (pathSplit path).2
    if r.2 = .ok then ({ s with fs := r.1 }, 0) else
    let d := r.1.rmdir (h.sub 2) par (pathSplit path).2
    ({ s with fs := d.1 }, if d.2 = .ok then 0 else -1)

def sysRename (h : Heap) (s : Files) (p : Nat) (oldPath newPath : List UInt8) : Files × Int :=
  match s.fs.vol.vfsResolveIno (h.sub 0) (s.cwdIno p) (pathSplit oldPath).1,
    s.fs.vol.vfsResolveIno (h.sub 1) (s.cwdIno p) (pathSplit newPath).1 with
  | some old, some new =>
    let r := s.fs.rename (h.sub 2) old (pathSplit oldPath).2 new (pathSplit newPath).2
    ({ s with fs := r.1 }, if r.2 = .ok then 0 else -1)
  | _, _ => (s, -1)

/-! ## Calls -/

inductive Call where
  | openFile (path : List UInt8) (flags : Nat)
  | read (fd : Int) (len : Nat)
  | write (fd : Int) (data : List UInt8)
  | lseek (fd off whence : Int)
  | unlink (path : List UInt8)
  | rename (oldPath newPath : List UInt8)
  | dup (fd : Int)
  | dup2 (oldfd newfd : Int)
  | close (fd : Int)
  | fork (ok : Bool)
  | exit

def fdCall (s : Files) (p : Nat) (c : FdSys.Call) : Files × Answer :=
  ({ s with fd := (s.fd.call p c).1 }, .num (s.fd.call p c).2)

/-- Process `p` makes a call; a child starts in the directory of its parent. -/
def call (e : Env) (s : Files) (p : Nat) : Call → Files × Answer
  | .openFile path flags => ((s.sysOpen e p path flags).1, .num (s.sysOpen e p path flags).2)
  | .read fd len => s.sysRead p fd len
  | .write fd data => s.sysWrite e.heap p fd data
  | .lseek fd off whence => ((s.sysLseek p fd off whence).1, .num (s.sysLseek p fd off whence).2)
  | .unlink path => ((s.sysUnlink e.heap p path).1, .num (s.sysUnlink e.heap p path).2)
  | .rename a b => ((s.sysRename e.heap p a b).1, .num (s.sysRename e.heap p a b).2)
  | .dup fd => s.fdCall p (.dup fd)
  | .dup2 a b => s.fdCall p (.dup2 a b)
  | .close fd => s.fdCall p (.close fd)
  | .fork ok =>
    let r := s.fdCall p (.fork ok)
    ({ r.1 with cwdIno := if ok then update s.cwdIno s.fd.next (s.cwdIno p) else s.cwdIno }, r.2)
  | .exit => s.fdCall p .exit

/-- A call by a process, in its environment; only a process that is not a zombie makes calls. -/
def step (s : Files) (c : Env × Nat × Call) : Files × Answer :=
  if c.2.1 ∈ s.fd.live then s.call c.1 c.2.1 c.2.2 else (s, .num (-1))

end Files
end Noxis
