import Noxis.DirSpec
/-!
# Path — path strings and what they resolve to (`fs/vfs/vfs.c`, `proc/syscalls.c`)

A path is a C string, the list of its bytes without the `NUL`; 47 is `'/'` and 46 is `'.'`.  Absolute paths under `/proc` and
`/dev` go to the synthetic file systems, whose inode numbers are above those of NoxFS; everything else goes to
`noxfs_resolve`.  The volume is mounted, so `_use_noxfs` is set.
-/
namespace Noxis

def inoOf (i : Nat) : Option Nat := if i = 2 ^ 32 - 1 then none else some i

/-! ## /proc and /dev -/

def procfsRootIno : Nat := 0xFFFFFFFE

def procfsPidIno (pid : Nat) : Nat := 0xFFFF0000 + pid % 2 ^ 16

def isProcfsIno (i : Nat) : Bool := decide (0xFFFF0000 ≤ i)

def devRootIno : Nat := 0xFFFE0000
def devNullIno : Nat := 0xFFFE0001
def devZeroIno : Nat := 0xFFFE0002
def devTtyIno : Nat := 0xFFFE0003
def devRandomIno : Nat := 0xFFFE0004

def isDevfsIno (i : Nat) : Bool := decide (devRootIno ≤ i)

def atSlash (p : List UInt8) : Bool := p.head?.all (· == 47)

/-- `procfs_is_proc_path`: `/proc`, alone or before a slash. -/
def procfsIsProcPath (p : List UInt8) : Bool := p.take 5 == [47, 112, 114, 111, 99] && atSlash (p.drop 5)

/-- `devfs_is_dev_path`: `/dev`, alone or before a slash. -/
def devfsIsDevPath (p : List UInt8) : Bool := p.take 4 == [47, 100, 101, 118] && atSlash (p.drop 4)

def isDigit (c : UInt8) : Bool := decide (48 ≤ c) && decide (c ≤ 57)

/-- `_parse_uint`, whose digits have been taken off the string. -/
def parseUint (digits : List UInt8) : Nat := digits.foldl (fun n c => (n * 10 + (c.toNat - 48)) % 2 ^ 64) 0

def procfsResolve (path : List UInt8) : Option Nat :=
  match path.drop 5 with
  | [] => some procfsRootIno
  | [47] => some procfsRootIno
  | 47 :: rest =>
    if rest.takeWhile isDigit ≠ [] ∧ rest.dropWhile isDigit = [] then inoOf (procfsPidIno (parseUint rest)) else none
  | _ => none

def devfsInode (name : List UInt8) : Option Nat :=
  if name = [110, 117, 108, 108] then some devNullIno
  else if name = [122, 101, 114, 111] then some devZeroIno
  else if name = [116, 116, 121] then some devTtyIno
  else if name = [114, 97, 110, 100, 111, 109] then some devRandomIno
  else none

def devfsResolve (path : List UInt8) : Option Nat :=
  match path.drop 4 with
  | [] => some devRootIno
  | [47] => some devRootIno
  | 47 :: rest => devfsInode rest
  | _ => none

/-! ## The facade -/

def Vol.vfsResolveIno (e : Heap) (v : Vol) (cwdIno : Nat) (path : List UInt8) : Option Nat :=
  if procfsIsProcPath path then procfsResolve path
  else if devfsIsDevPath path then devfsResolve path
  else v.resolve e cwdIno path

def Vol.vfsIsDir (v : Vol) (ino : Nat) : Bool :=
  if isProcfsIno ino then true
  else if isDevfsIno ino then ino == devRootIno
  else
    match v.iread ino with
    | none => false
    | some n => n.isDir

/-! ## path_resolve_str -/

/-- What is copied into `tmp`: an absolute path, or the base, a slash unless it ends in one, and the path; 255 bytes at
most. -/
def joined (base rel : List UInt8) : List UInt8 :=
  if rel.head? = some 47 then rel.take 255 else
  let t := base.take 255
  let t := if t ≠ [] ∧ t.getLast? ≠ some 47 then t ++ [47] else t
  t ++ rel.take (255 - t.length)

def words : Nat → List UInt8 → List Name
  | 0, _ => []
  | n + 1, p =>
    let p := p.dropWhile (· == 47)
    if p = [] then [] else p.takeWhile (· != 47) :: words n (p.dropWhile (· != 47))

/-- One word on the component stack: `.` does nothing, `..` pops, and what does not fit is dropped. -/
def pushComp (comps : List Name) (c : Name) : List Name :=
  if c = [46] then comps
  else if c = [46, 46] then comps.dropLast
  else if comps.length < 16 ∧ c.length < 32 then comps ++ [c]
  else comps

/-- The loop that rebuilds the path in `size` bytes, from component `i` on, behind what `dst` holds already. -/
def render (size : Nat) : Nat → List UInt8 → List Name → List UInt8
  | _, dst, [] => dst
  | i, dst, c :: cs =>
    if dst.length < size - 2 then
      let dst := if 0 < i then dst ++ [47] else dst
      render size (i + 1) (dst ++ c.take (size - 1 - dst.length)) cs
    else dst

def pathResolveStr (size : Nat) (base rel : List UInt8) : List UInt8 :=
  render size 0 [47] ((words (joined base rel).length (joined base rel)).foldl pushComp [])

/-! ## sys_chdir -/

/-- The working directory of a process: `cwd_ino` and `cwd_path`. -/
structure Cwd where
  ino : Nat
  path : List UInt8

/-- `sys_chdir`; the result says whether it returned 0. -/
def Vol.sysChdir (e : Heap) (v : Vol) (cwd : Cwd) (path : List UInt8) : Cwd × Bool :=
  if path = [] then (cwd, false) else
  match v.vfsResolveIno e cwd.ino path with
  | none => (cwd, false)
  | some ino => if v.vfsIsDir ino then (⟨ino, pathResolveStr 128 cwd.path path⟩, true) else (cwd, false)

end Noxis
