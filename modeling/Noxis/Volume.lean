import Noxis.Bytes
import Noxis.Bitmap
/-!
# Volume — the mounted NoxFS volume: superblock, bitmaps, inodes, file data (`fs/noxfs/noxfs.c`)

`Vol` is the disk together with `g_sb`, the in-memory superblock.  Blocks are read and written through the buffer cache,
which is transparent (`Sys.buffer_cache_coherent`), so `bread` of a block is `disk n` and a `bwrite` is `Vol.put`; the
device does not fail here, so the direct ATA fallbacks never run.  A `noxfs_inode_t` is its 64 bytes, with the fields at
their packed offsets.  `kmalloc` is answered by a `Heap`: it may fail, and the memory it returns holds anything.
-/
namespace Noxis

open Bitmap

/-- `os_status_t`, without the codes the file system does not return. -/
inductive Status where
  | ok | oom | invalid | io | notFound
  deriving DecidableEq, Repr

/-- The answers of the kernel heap during one call: `ok` says whether an allocation succeeds, `junk` what the memory
holds.  An allocation is named by the path of callees it is made through. -/
structure Heap where
  ok : List Nat → Bool
  junk : List Nat → Nat → UInt8

/-- The heap as the `k`-th callee sees it. -/
def Heap.sub (e : Heap) (k : Nat) : Heap := ⟨fun p => e.ok (k :: p), fun p => e.junk (k :: p)⟩

/-- The `k`-th allocation of this function itself. -/
def Heap.kmalloc (e : Heap) (k : Nat) : Option (Nat → UInt8) := if e.ok [k] then some (e.junk [k]) else none

def Heap.Ok (e : Heap) : Prop := ∀ p, e.ok p = true

theorem Heap.Ok.sub {e : Heap} (h : e.Ok) (k : Nat) : (e.sub k).Ok := fun p => h (k :: p)

theorem Heap.Ok.kmalloc {e : Heap} (h : e.Ok) (k : Nat) : e.kmalloc k = some (e.junk [k]) := by
  unfold Heap.kmalloc
  rw [if_pos (h [k])]

/-! ## Superblock -/

structure Sb where
  magic : Nat
  blockCount : Nat
  inodeCount : Nat
  freeBlocks : Nat
  freeInodes : Nat
  blkBmp : Nat
  inoBmp : Nat
  inoTbl : Nat
  dataStart : Nat
  rootIno : Nat
  pad : Nat → UInt8

def noxfsMagic : Nat := 0x4E584632

def Sb.words (b : Sb) : List Nat :=
  [b.magic, b.blockCount, b.inodeCount, b.freeBlocks, b.freeInodes, b.blkBmp, b.inoBmp, b.inoTbl, b.dataStart, b.rootIno]

def Sb.toBlock (b : Sb) : Nat → UInt8 :=
  fun x => if x < 40 then UInt8.ofNat (b.words.getD (x / 4) 0 / 256 ^ (x % 4)) else b.pad x

def Sb.ofBlock (d : Nat → UInt8) : Sb where
  magic := leRead d 0 4
  blockCount := leRead d 4 4
  inodeCount := leRead d 8 4
  freeBlocks := leRead d 12 4
  freeInodes := leRead d 16 4
  blkBmp := leRead d 20 4
  inoBmp := leRead d 24 4
  inoTbl := leRead d 28 4
  dataStart := leRead d 32 4
  rootIno := leRead d 36 4
  pad := d

structure Vol where
  disk : Nat → Nat → UInt8
  sb : Sb

/-- A block written through the buffer cache. -/
def Vol.put (v : Vol) (n : Nat) (b : Nat → UInt8) : Vol := { v with disk := Function.update v.disk n b }

def Vol.sbWrite (v : Vol) : Vol := v.put 0 v.sb.toBlock

/-! ## Bitmaps -/

/-- `_bmp_alloc`; both callers scan a single bitmap block. -/
def Vol.bmpAlloc (v : Vol) (start maxBits : Nat) : Option (Vol × Nat) :=
  (firstClear (v.disk start) 512 maxBits).map (fun idx => (v.put start (setBit (v.disk start) idx), idx))

def Vol.bmpFree (v : Vol) (start bit : Nat) : Vol :=
  v.put (start + bit / 4096) (clearBit (v.disk (start + bit / 4096)) (bit % 4096))

def Vol.setFreeBlocks (v : Vol) (n : Nat) : Vol := { v with sb := { v.sb with freeBlocks := n } }

def Vol.setFreeInodes (v : Vol) (n : Nat) : Vol := { v with sb := { v.sb with freeInodes := n } }

/-- `_balloc`; `none` is `(uint32_t)-1`. -/
def Vol.balloc (v : Vol) : Option (Vol × Nat) :=
  if v.sb.freeBlocks = 0 then none
  else (v.bmpAlloc v.sb.blkBmp v.sb.blockCount).map
    (fun r => ((r.1.setFreeBlocks (r.1.sb.freeBlocks - 1)).sbWrite, r.2))

def Vol.bfree (v : Vol) (blk : Nat) : Vol :=
  if v.sb.blockCount ≤ blk then v
  else ((v.bmpFree v.sb.blkBmp blk).setFreeBlocks ((v.sb.freeBlocks + 1) % 2 ^ 32)).sbWrite

/-! ## Inodes -/

/-- `noxfs_inode_t`, as its bytes. -/
abbrev Inode := Nat → UInt8

namespace Inode

def mode (n : Inode) : Nat := leRead n 0 2
def size (n : Inode) : Nat := leRead n 6 4
def block (n : Inode) (k : Nat) : Nat := leRead n (10 + 4 * k) 4
def indirect (n : Inode) : Nat := leRead n 50 4
def links (n : Inode) : Nat := leRead n 54 2

def setMode (n : Inode) (m : Nat) : Inode := leWrite n 0 2 m
def setSize (n : Inode) (sz : Nat) : Inode := leWrite n 6 4 sz
def setBlock (n : Inode) (k blk : Nat) : Inode := leWrite n (10 + 4 * k) 4 blk
def setIndirect (n : Inode) (blk : Nat) : Inode := leWrite n 50 4 blk
def setLinks (n : Inode) (l : Nat) : Inode := leWrite n 54 2 l

def isDir (n : Inode) : Bool := n.mode.testBit 14

def isFile (n : Inode) : Bool := n.mode.testBit 15

/-- The zeroed inode `_ialloc` starts from, with its mode and one link. -/
def new (m : Nat) : Inode := setLinks (setMode (fun _ => 0) m) 1

end Inode

def modeFile : Nat := 0x81A4
def modeDir : Nat := 0x41ED

def Vol.inode (v : Vol) (ino : Nat) : Inode :=
  fun x => if x < 64 then v.disk (v.sb.inoTbl + ino / 8) (ino % 8 * 64 + x) else 0

/-- The copy loop that `_ialloc` and `_iwrite` share. -/
def Vol.putInode (v : Vol) (ino : Nat) (n : Inode) : Vol :=
  v.put (v.sb.inoTbl + ino / 8) (fun x =>
    if ino % 8 * 64 ≤ x ∧ x < ino % 8 * 64 + 64 then n (x - ino % 8 * 64) else v.disk (v.sb.inoTbl + ino / 8) x)

def Vol.ialloc (v : Vol) (mode : Nat) : Option (Vol × Nat) :=
  if v.sb.freeInodes = 0 then none
  else (v.bmpAlloc v.sb.inoBmp v.sb.inodeCount).map (fun r =>
    (((r.1.putInode r.2 (Inode.new mode)).setFreeInodes (r.1.sb.freeInodes - 1)).sbWrite, r.2))

def Vol.iread (v : Vol) (ino : Nat) : Option Inode := if v.sb.inodeCount ≤ ino then none else some (v.inode ino)

def Vol.iwrite (v : Vol) (ino : Nat) (n : Inode) : Vol × Status :=
  if v.sb.inodeCount ≤ ino then (v, .invalid) else (v.putInode ino n, .ok)

def Vol.ifree (v : Vol) (ino : Nat) : Vol :=
  if v.sb.inodeCount ≤ ino then v
  else ((v.bmpFree v.sb.inoBmp ino).setFreeInodes ((v.sb.freeInodes + 1) % 2 ^ 32)).sbWrite

/-! ## Block mapping -/

/-- The direct part of `_iget_block`; the last component is 0 on failure. -/
def Vol.directBlock (v : Vol) (n : Inode) (k : Nat) (allocate : Bool) : Vol × Inode × Nat :=
  if allocate = true ∧ n.block k = 0 then
    match v.balloc with
    | none => (v, n, 0)
    | some (v1, blk) => (v1, n.setBlock k blk, (n.setBlock k blk).block k)
  else (v, n, n.block k)

/-- `_iget_block` makes sure of the indirect block: a new one is zeroed.  `none` when no block is left. -/
def Vol.ensureIndirect (v : Vol) (n : Inode) (allocate : Bool) : Option (Vol × Inode) :=
  if allocate = true ∧ n.indirect = 0 then
    v.balloc.map (fun r => (r.1.put r.2 (fun _ => 0), n.setIndirect r.2))
  else some (v, n)

/-- `ptrs[l]` of the indirect block `ind`, allocated on demand. -/
def Vol.listedBlock (v : Vol) (ind l : Nat) (allocate : Bool) : Vol × Nat :=
  if allocate = true ∧ leRead (v.disk ind) (4 * l) 4 = 0 then
    match v.balloc with
    | none => (v, 0)
    | some (v1, blk) =>
      (v1.put ind (leWrite (v1.disk ind) (4 * l) 4 blk), leRead (leWrite (v1.disk ind) (4 * l) 4 blk) (4 * l) 4)
  else (v, leRead (v.disk ind) (4 * l) 4)

def Vol.igetBlock (v : Vol) (n : Inode) (logical : Nat) (allocate : Bool) : Vol × Inode × Nat :=
  if logical < 10 then v.directBlock n logical allocate
  else if 128 ≤ logical - 10 then (v, n, 0)
  else
    match v.ensureIndirect n allocate with
    | none => (v, n, 0)
    | some (v1, n1) =>
      if n1.indirect = 0 then (v1, n1, 0)
      else
        ((v1.listedBlock n1.indirect (logical - 10) allocate).1, n1, (v1.listedBlock n1.indirect (logical - 10) allocate).2)

/-! ## File data -/

/-- Blocks of a file of `size` bytes, in 32-bit arithmetic. -/
def blocksFor (size : Nat) : Nat := (size + 511) % 2 ^ 32 / 512

/-- One turn of the loop of `_load_data`: block `s` of the file, cut off at its size. -/
def Vol.loadBlock (v : Vol) (n : Inode) (s : Nat) (buf : Nat → UInt8) : Nat → UInt8 :=
  if (v.igetBlock n s false).2.2 = 0 then buf
  else fun x => if s * 512 ≤ x ∧ x < s * 512 + 512 ∧ x < n.size then
    v.disk (v.igetBlock n s false).2.2 (x - s * 512) else buf x

def Vol.loadBlocks (v : Vol) (n : Inode) (buf : Nat → UInt8) : Nat → Nat → UInt8
  | 0 => buf
  | k + 1 => v.loadBlock n k (v.loadBlocks n buf k)

/-- `_load_data`: the size it reports and the buffer, `none` when `kmalloc` fails; `none` altogether when the inode
cannot be read. -/
def Vol.loadData (e : Heap) (v : Vol) (ino : Nat) : Option (Nat × Option (Nat → UInt8)) :=
  (v.iread ino).map (fun n =>
    if n.size = 0 then (0, (e.kmalloc 0).map (fun junk => Function.update junk 0 0))
    else (n.size, (e.kmalloc 0).map (fun junk => v.loadBlocks n junk ((n.size + 511) / 512))))

/-- The copy of block `s` of the data into disk block `blk`. -/
def Vol.storeBlock (v : Vol) (data : Nat → UInt8) (size s blk : Nat) : Vol :=
  v.put blk (fun b => if b < 512 ∧ s * 512 + b < size then data (s * 512 + b) else v.disk blk b)

/-- The loop of `_store_data` from block `s` on, with `m` turns left; `false` when a block cannot be had. -/
def Vol.storeBlocks (data : Nat → UInt8) (size : Nat) : Nat → Nat → Vol → Inode → Vol × Inode × Bool
  | 0, _, v, n => (v, n, true)
  | m + 1, s, v, n =>
    if (v.igetBlock n s true).2.2 = 0 then ((v.igetBlock n s true).1, (v.igetBlock n s true).2.1, false)
    else Vol.storeBlocks data size m (s + 1)
      ((v.igetBlock n s true).1.storeBlock data size s (v.igetBlock n s true).2.2) (v.igetBlock n s true).2.1

def Vol.storeData (v : Vol) (ino : Nat) (data : Nat → UInt8) (size : Nat) : Vol × Status :=
  match v.iread ino with
  | none => (v, .io)
  | some n =>
    match Vol.storeBlocks data size (blocksFor size) 0 v (n.setSize size) with
    | (v1, _, false) => (v1, .oom)
    | (v1, n1, true) => if (v1.iwrite ino n1).2 = .ok then ((v1.iwrite ino n1).1, .ok) else ((v1.iwrite ino n1).1, .io)

end Noxis
