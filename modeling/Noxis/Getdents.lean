import Noxis.Cursor
import Noxis.Path
import Noxis.Created
/-!
# Getdents — listing a directory (`noxfs_getdents`, `procfs_getdents`, `devfs_getdents`)

The three file systems list a directory into the caller's buffer, 32 bytes a record, and keep their place in `*off`.  NoxFS
copies the records of the directory file; `/proc` has four entries of its own before the process list, a process directory
has three, `/dev` has six.  Each of them reads its list in pieces (`Cursor.Reads`).
-/
namespace Noxis

open List
open Cursor

/-! ## The code -/

structure DentBuf where
  len : Nat
  big : 32 ≤ len
  word : len < 2 ^ 32

def recordBytes (d : Nat → UInt8) (k : Nat) : List UInt8 := (List.range 32).map fun b => d (32 * k + b)

/-- The loop that packs the records from `idx` on, `n` of them left, behind `written` bytes. -/
def packDirents (d : Nat → UInt8) (len : Nat) : Nat → Nat → Nat → List (List UInt8)
  | 0, _, _ => []
  | n + 1, idx, written => if written + 32 ≤ len then recordBytes d idx :: packDirents d len n (idx + 1) (written + 32) else []

def Vol.noxfsGetdents (v : Vol) (dir : Nat) (call : Heap × DentBuf) (off : Nat) : Answer (List UInt8) :=
  match v.iread dir with
  | none => ⟨-1, [], off⟩
  | some n =>
    if n.isDir = false then ⟨-1, [], off⟩ else
    match v.loadData call.1 dir with
    | some (sz, some d) =>
      if sz / 32 ≤ off / 32 then ⟨0, [], off⟩ else
      let got := packDirents d call.2.len (sz / 32 - off / 32) (off / 32) 0
      ⟨(32 * got.length : Nat), got, (off / 32 + got.length) * 32 % 2 ^ 32⟩
    | _ => ⟨-1, [], off⟩

/-- `while (… && pos + entry_size <= len)`: the entries written, and those left. -/
def fillDirents (len : Nat) : List Dirent → Nat → List Dirent × List Dirent × Nat
  | [], pos => ([], [], pos)
  | r :: rs, pos =>
    if (pos + 32) % 2 ^ 32 ≤ len then
      let rest := fillDirents len rs ((pos + 32) % 2 ^ 32)
      (r :: rest.1, rest.2)
    else ([], r :: rs, pos)

/-- `while (fixed[fidx] && entry_idx > 0) { fidx++; entry_idx--; }` -/
def skipDirents : List Dirent → Nat → List Dirent × Nat
  | [], k => ([], k)
  | r :: rs, 0 => (r :: rs, 0)
  | _ :: rs, k + 1 => skipDirents rs k

/-- `_uint_to_str`: the digits of a 64-bit number. -/
def digitsFrom : Nat → Nat → List UInt8 → List UInt8
  | 0, _, out => out
  | n + 1, x, out => if x = 0 then out else digitsFrom n (x / 10) (UInt8.ofNat (48 + x % 10) :: out)

def uintToStr (x : Nat) : List UInt8 := if x = 0 then [48] else digitsFrom 20 x []

def pidDirent (pid : Nat) : Dirent := ⟨procfsPidIno pid, ftDir, (uintToStr pid).take 23⟩

/-- The loop over the processes: `skip` of them have been listed before. -/
def listProcs (len : Nat) : List Nat → Nat → Nat → List Dirent × Nat
  | [], _, pos => ([], pos)
  | pid :: pids, skip, pos =>
    if 0 < skip then listProcs len pids (skip - 1) pos
    else if len < (pos + 32) % 2 ^ 32 then ([], pos)
    else
      let rest := listProcs len pids 0 ((pos + 32) % 2 ^ 32)
      (pidDirent pid :: rest.1, rest.2)

def procFixed : List Dirent :=
  [⟨procfsRootIno, ftDir, [46]⟩, ⟨procfsRootIno, ftDir, [46, 46]⟩, ⟨1, ftFile, [117, 112, 116, 105, 109, 101]⟩,
    ⟨2, ftFile, [109, 101, 109, 105, 110, 102, 111]⟩]

def pidFixed (dir : Nat) : List Dirent :=
  [⟨dir, ftDir, [46]⟩, ⟨dir, ftDir, [46, 46]⟩, ⟨dir % 2 ^ 16, ftFile, [115, 116, 97, 116, 117, 115]⟩]

/-- `procfs_getdents`, with the pids of the process list. -/
def procfsGetdents (pids : List Nat) (dir : Nat) (buf : DentBuf) (off : Nat) : Answer Dirent :=
  if dir = procfsRootIno then
    let skipped := skipDirents procFixed (off / 32)
    let got := fillDirents buf.len skipped.1 0
    if got.2.1 ≠ [] then ⟨got.2.2, got.1, (off / 32 * 32 + got.1.length * 32) % 2 ^ 32⟩
    else
      let more := listProcs buf.len pids skipped.2 got.2.2
      ⟨more.2, got.1 ++ more.1, (off + (got.1 ++ more.1).length * 32) % 2 ^ 32⟩
  else
    let got := fillDirents buf.len ((pidFixed dir).drop (off / 32)) 0
    ⟨got.2.2, got.1, (off + got.1.length * 32) % 2 ^ 32⟩

def devFixed : List Dirent :=
  [⟨devRootIno, ftDir, [46]⟩, ⟨devRootIno, ftDir, [46, 46]⟩, ⟨devNullIno, ftFile, [110, 117, 108, 108]⟩,
    ⟨devZeroIno, ftFile, [122, 101, 114, 111]⟩, ⟨devTtyIno, ftFile, [116, 116, 121]⟩,
    ⟨devRandomIno, ftFile, [114, 97, 110, 100, 111, 109]⟩]

def devfsGetdents (buf : DentBuf) (off : Nat) : Answer Dirent :=
  let got := fillDirents buf.len (devFixed.drop (off / 32)) 0
  ⟨got.2.2, got.1, (off + got.1.length * 32) % 2 ^ 32⟩

/-! ## The loops -/

theorem fillDirents_eq {len : Nat} : ∀ {rs : List Dirent} {pos : Nat}, pos ≤ len → pos + 32 * rs.length < 2 ^ 32 →
    fillDirents len rs pos =
      (rs.take ((len - pos) / 32), rs.drop ((len - pos) / 32), pos + 32 * (rs.take ((len - pos) / 32)).length)
  | [], pos, _, _ => by
    rw [fillDirents, take_nil, drop_nil]
    rfl
  | r :: rs, pos, hpos, hword => by
    rw [length_cons] at hword
    rw [fillDirents, Nat.mod_eq_of_lt (by omega)]
    by_cases hroom : pos + 32 ≤ len
    · have hdiv : (len - pos) / 32 = (len - (pos + 32)) / 32 + 1 := by omega
      rw [if_pos hroom, fillDirents_eq hroom (by omega), hdiv, take_succ_cons, drop_succ_cons, length_cons]
      dsimp only
      rw [Nat.mul_succ, add_assoc, add_comm 32]
    · have hdiv : (len - pos) / 32 = 0 := by omega
      rw [if_neg hroom, hdiv]
      rfl

theorem packDirents_eq {d : Nat → UInt8} {len : Nat} : ∀ {n idx written : Nat}, written ≤ len →
    packDirents d len n idx written = ((range' idx n).map (recordBytes d)).take ((len - written) / 32)
  | 0, _, _, _ => take_nil.symm
  | n + 1, idx, written, h => by
    rw [packDirents, range'_succ, map_cons]
    by_cases hroom : written + 32 ≤ len
    · have hdiv : (len - written) / 32 = (len - (written + 32)) / 32 + 1 := by omega
      rw [if_pos hroom, packDirents_eq hroom, hdiv, take_succ_cons]
    · have hdiv : (len - written) / 32 = 0 := by omega
      rw [if_neg hroom, hdiv]
      rfl

theorem skipDirents_eq : ∀ (rs : List Dirent) (k : Nat), skipDirents rs k = (rs.drop k, k - rs.length)
  | [], k => by rw [skipDirents, drop_nil]; rfl
  | r :: rs, 0 => by rw [skipDirents, drop_zero, Nat.zero_sub]
  | r :: rs, k + 1 => by rw [skipDirents, skipDirents_eq rs k, drop_succ_cons, length_cons, Nat.add_sub_add_right]

theorem listProcs_eq {len : Nat} : ∀ {pids : List Nat} {skip pos : Nat}, pos ≤ len → pos + 32 * pids.length < 2 ^ 32 →
    listProcs len pids skip pos = (((pids.drop skip).take ((len - pos) / 32)).map pidDirent,
      pos + 32 * ((pids.drop skip).take ((len - pos) / 32)).length)
  | [], skip, pos, _, _ => by
    rw [listProcs, drop_nil, take_nil]
    rfl
  | pid :: pids, skip, pos, hpos, hword => by
    rw [length_cons] at hword
    rw [listProcs]
    cases skip with
    | succ skip =>
      rw [if_pos (Nat.succ_pos skip), Nat.add_sub_cancel, listProcs_eq hpos (by omega), drop_succ_cons]
    | zero =>
      rw [if_neg (lt_irrefl 0), Nat.mod_eq_of_lt (by omega), drop_zero]
      by_cases hroom : pos + 32 ≤ len
      · have hdiv : (len - pos) / 32 = (len - (pos + 32)) / 32 + 1 := by omega
        rw [if_neg (by omega), listProcs_eq hroom (by omega), drop_zero, hdiv, take_succ_cons, map_cons, length_cons]
        dsimp only
        rw [Nat.mul_succ, add_assoc, add_comm 32]
      · have hdiv : (len - pos) / 32 = 0 := by omega
        rw [if_pos (by omega), hdiv]
        rfl

/-! ## The three listings -/

theorem fill_piece {es : List Dirent} (hes : 32 * es.length < 2 ^ 31) {m : Nat} (hm : m ≤ es.length) (buf : DentBuf) :
    let r := fillDirents buf.len (es.drop (32 * m / 32)) 0
    (⟨(r.2.2 : Nat), r.1, (32 * m + r.1.length * 32) % 2 ^ 32⟩ : Answer Dirent) = piece es 32 m (buf.len / 32) := by
  have hlen : ((es.drop m).take (buf.len / 32)).length ≤ es.length - m := by
    rw [length_take, length_drop]
    omega
  rw [Nat.mul_div_cancel_left m (by decide : 0 < 32), fillDirents_eq (Nat.zero_le _) (by rw [length_drop]; omega),
    Nat.sub_zero, piece]
  dsimp only
  rw [Nat.mod_eq_of_lt (by omega), zero_add, Nat.mul_add, mul_comm _ 32]

theorem DentBuf.one_le (buf : DentBuf) : 1 ≤ buf.len / 32 := by
  have := buf.big
  omega

theorem devfs_reads : Reads devfsGetdents devFixed 32 (fun _ => True) (fun buf => buf.len / 32) :=
  ⟨by decide, DentBuf.one_le, fun buf m hm => .inl (fill_piece (by decide) hm buf)⟩

theorem procfs_pid_reads (pids : List Nat) {dir : Nat} (hdir : dir ≠ procfsRootIno) :
    Reads (procfsGetdents pids dir) (pidFixed dir) 32 (fun _ => True) (fun buf => buf.len / 32) := by
  refine ⟨by decide, DentBuf.one_le, fun buf m hm => .inl ?_⟩
  have hlen : (pidFixed dir).length = 3 := rfl
  unfold procfsGetdents
  rw [if_neg hdir]
  exact fill_piece (by rw [hlen]; decide) hm buf

def procEntries (pids : List Nat) : List Dirent := procFixed ++ pids.map pidDirent

theorem procfs_root_reads {pids : List Nat} (hpids : 32 * (pids.length + 4) < 2 ^ 31) :
    Reads (procfsGetdents pids procfsRootIno) (procEntries pids) 32 (fun _ => True) (fun buf => buf.len / 32) := by
  refine ⟨by decide, DentBuf.one_le, fun buf m hm => .inl ?_⟩
  have hfix : procFixed.length = 4 := rfl
  have hlen : (procEntries pids).length = 4 + pids.length := by
    rw [procEntries, length_append, length_map, hfix]
  have hgot : (((procEntries pids).drop m).take (buf.len / 32)).length ≤ (procEntries pids).length - m := by
    rw [length_take, length_drop]
    omega
  set r := procFixed.drop m
  have hfill : fillDirents buf.len r 0 = (r.take (buf.len / 32),
      r.drop (buf.len / 32), 32 * (r.take (buf.len / 32)).length) := by
    rw [fillDirents_eq (Nat.zero_le _) (by rw [length_drop]; omega), Nat.sub_zero, zero_add]
  have hpiece : ((procEntries pids).drop m).take (buf.len / 32) = r.take (buf.len / 32) ++
      ((pids.drop (m - 4)).take (buf.len / 32 - r.length)).map pidDirent := by
    rw [procEntries, drop_append, take_append, map_take, map_drop, hfix]
  have hF : r.length = 4 - m := by rw [length_drop, hfix]
  unfold procfsGetdents
  rw [if_pos rfl, Nat.mul_div_cancel_left m (by decide : 0 < 32), skipDirents_eq, hfix]
  dsimp only
  rw [hfill, piece]
  dsimp only
  split
  next hleft =>
    -- the fixed entries do not all fit
    have hlt : buf.len / 32 < r.length := by
      by_contra hge
      exact hleft (drop_eq_nil_iff.mpr (by omega))
    have hnone : buf.len / 32 - r.length = 0 := by omega
    rw [hnone, take_zero, map_nil, append_nil] at hpiece
    rw [hpiece] at hgot ⊢
    rw [Nat.mod_eq_of_lt (by omega), Nat.mul_add, mul_comm m, mul_comm _ 32]
  next hdone =>
    have hge : r.length ≤ buf.len / 32 := by
      by_contra hlt
      exact hdone fun hnil => hlt (drop_eq_nil_iff.mp hnil)
    rw [take_of_length_le hge] at hpiece ⊢
    rw [listProcs_eq (by omega) (by omega)]
    have hroom : (buf.len - 32 * r.length) / 32 = buf.len / 32 - r.length := by omega
    dsimp only
    rw [hroom]
    rw [hpiece, length_append, length_map] at hgot
    rw [hpiece, length_append, length_map, Nat.mod_eq_of_lt (by omega), ← Nat.mul_add, Nat.mul_add 32 m, mul_comm _ 32]

def Vol.dirRecords (v : Vol) (dir : Nat) : List (List UInt8) :=
  (List.range ((v.inode dir).size / 32)).map (recordBytes (v.byteAt dir))

theorem noxfs_reads {v : Vol} {dir : Nat} (hi : dir < v.sb.inodeCount) (hdir : (v.inode dir).isDir = true) (hm : v.Mapped dir) :
    Reads (v.noxfsGetdents dir) (v.dirRecords dir) 32 (fun c => c.1.Ok) (fun c => c.2.len / 32) := by
  refine ⟨by decide, fun c => c.2.one_le, fun c m hle => ?_⟩
  have hsize := hm.size_le
  unfold Vol.dirRecords at *
  rw [length_map, length_range] at hle
  unfold Vol.noxfsGetdents
  rw [iread_of_lt hi]
  dsimp only
  rw [hdir, if_neg (by decide)]
  obtain ⟨buf, hload, hbytes⟩ | ⟨hbad, sz, hload⟩ := loadData_cases c.1 hi hm
  · refine .inl ?_
    rw [hload]
    dsimp only
    rw [Nat.mul_div_cancel_left m (by decide : 0 < 32)]
    by_cases hend : (v.inode dir).size / 32 ≤ m
    · rw [if_pos hend, piece_nil (by rw [length_map, length_range]; exact hend)]
    -- the buffer holds the records of the directory
    have hpack : packDirents buf c.2.len ((v.inode dir).size / 32 - m) m 0 =
        (((range ((v.inode dir).size / 32)).map (recordBytes (v.byteAt dir))).drop m).take (c.2.len / 32) := by
      rw [packDirents_eq (Nat.zero_le _), Nat.sub_zero, ← map_drop, range_eq_range', drop_range', zero_add, mul_one]
      congr 1
      refine map_congr_left fun k hk => ?_
      have hk' := mem_range'_1.mp hk
      unfold recordBytes
      refine map_congr_left fun b hb => hbytes _ ?_
      have hb' := mem_range.mp hb
      omega
    rw [if_neg hend, hpack, piece]
    have hlen : ((((range ((v.inode dir).size / 32)).map (recordBytes (v.byteAt dir))).drop m).take (c.2.len / 32)).length ≤
        (v.inode dir).size / 32 - m := by
      rw [length_take, length_drop, length_map, length_range]
      omega
    rw [Nat.mod_eq_of_lt (by omega), mul_comm _ 32]
  · rw [hload]
    exact .inr ⟨hbad, rfl⟩

/-- **Directory listings do not depend on the buffers.**  For a NoxFS directory with all its blocks, `/proc` with an unchanged
process list, a process directory and `/dev`: whatever the sizes of the buffers, the records of the calls up to the first that
answers 0 are the entries of the directory in order, and one of the calls answers 0 when there are more of them than entries
(for NoxFS, where a call needs memory, when none of them fails). -/
theorem getdents_listed : (∀ (v : Vol) (dir : Nat), dir < v.sb.inodeCount → (v.inode dir).isDir = true → v.Mapped dir →
      ∀ calls, Listed (v.noxfsGetdents dir) (v.dirRecords dir) (fun c => c.1.Ok) calls) ∧
    (∀ pids : List Nat, 32 * (pids.length + 4) < 2 ^ 31 →
      ∀ calls, Listed (procfsGetdents pids procfsRootIno) (procEntries pids) (fun _ => True) calls) ∧
    (∀ (pids : List Nat) (dir : Nat), dir ≠ procfsRootIno →
      ∀ calls, Listed (procfsGetdents pids dir) (pidFixed dir) (fun _ => True) calls) ∧
    ∀ calls, Listed devfsGetdents devFixed (fun _ => True) calls :=
  ⟨fun _ _ hi hdir hm => (noxfs_reads hi hdir hm).listed, fun _ hpids => (procfs_root_reads hpids).listed,
    fun pids _ hdir => (procfs_pid_reads pids hdir).listed, devfs_reads.listed⟩

def oneRecord : DentBuf := ⟨32, by decide, by decide⟩
def fewRecords : DentBuf := ⟨100, by decide, by decide⟩

/-- `/a` of the nested volume, `/proc` with two processes, `/proc/1` and `/dev`, in buffers of one and of three records. -/
theorem getdents_listed_nested :
    Listed (nestedVol.noxfsGetdents 1) (nestedVol.dirRecords 1) (fun c => c.1.Ok) [(calm, oneRecord), (calm, fewRecords), (calm, oneRecord)] ∧
    Listed (procfsGetdents [1, 2] procfsRootIno) (procEntries [1, 2]) (fun _ => True) [fewRecords, oneRecord, fewRecords, oneRecord] ∧
    Listed (procfsGetdents [1, 2] (procfsPidIno 1)) (pidFixed (procfsPidIno 1)) (fun _ => True) [oneRecord, fewRecords] ∧
    Listed devfsGetdents devFixed (fun _ => True) [fewRecords, fewRecords, oneRecord] := by
  have hcount : (1 : Nat) < nestedVol.sb.inodeCount := by decide +kernel
  have hdir : (nestedVol.inode 1).isDir = true := by decide +kernel
  exact ⟨getdents_listed.1 nestedVol 1 hcount hdir (nestedVol_tree 1 hcount hdir).mapped _,
    getdents_listed.2.1 [1, 2] (by decide) _, getdents_listed.2.2.1 [1, 2] (procfsPidIno 1) (by decide) _,
    getdents_listed.2.2.2 _⟩

end Noxis
