import Noxis.Capacity
/-!
# Written — what `noxfs_write` does to a cached file

`Poked` says what a write without wrap-around does once there is room: bytes of the buffer and the size change as expected,
other slots stay, and the whole file goes to `_store_data`, whose status is the answer.
-/
namespace Noxis

open List Option

theorem storeBlocks_le (data : Nat → UInt8) (size : Nat) : ∀ (m s : Nat) (v : Vol) (n : Inode),
    (Vol.storeBlocks data size m s v n).2.2 = true → m ≠ 0 → s + m ≤ 138
  | 0, _, _, _, _, h0 => absurd rfl h0
  | m + 1, s, v, n, h, _ => by
    unfold Vol.storeBlocks at h
    split at h
    · cases h
    rename_i hblk
    have hs : s < 138 := by
      by_contra hge
      refine hblk ?_
      unfold Vol.igetBlock
      rw [if_neg (by omega), if_pos (by omega)]
    by_cases hm : m = 0
    · omega
    · have := storeBlocks_le data size m (s + 1) _ _ h hm
      omega

theorem storeData_size_le {v : Vol} {ino size : Nat} {data : Nat → UInt8} (hs : size + 511 < 2 ^ 32)
    (h : (v.storeData ino data size).2 = .ok) : size ≤ 138 * 512 := by
  unfold Vol.storeData at h
  split at h
  · cases h
  rename_i n _
  split at h
  · cases h
  rename_i v1 n1 hst
  have hle := storeBlocks_le data size (blocksFor size) 0 v (n.setSize size) (by rw [hst])
  unfold blocksFor at hle
  rw [Nat.mod_eq_of_lt hs] at hle
  omega

/-- **When `_store_data` succeeds**: the format has room for the size, and the volume for the blocks that are missing. -/
theorem storeData_ok_iff {v : Vol} {i size : Nat} (hv : v.Sound) (hi : v.Allocated i) (hs : size + 511 < 2 ^ 32)
    (data : Nat → UInt8) : (v.storeData i data size).2 = .ok ↔
      size ≤ 138 * 512 ∧ missing v (v.inode i) 0 (blocksFor size) ≤ v.sb.freeBlocks := by
  have hspec : StoreSpec v i data size _ := storeData_spec hv hi data (by omega)
  constructor
  · intro hok
    exact ⟨storeData_size_le hs hok, hspec.missing_le hv hi hok⟩
  · rintro ⟨hsize, hmiss⟩
    refine hspec.enough ?_ hmiss
    rw [blocksFor_eq hsize]
    omega

namespace Fs

open Function

variable {fs : Fs} {e : Heap} {k : Nat}

def byte (fs : Fs) (k x : Nat) : UInt8 := (fs.bufs (fs.files k).data).bytes x

def content (fs : Fs) (k : Nat) : List UInt8 := (List.range (fs.files k).size).map (fs.byte k)

theorem content_length (fs : Fs) (k : Nat) : (fs.content k).length = (fs.files k).size := by
  unfold content
  rw [length_map, length_range]

theorem pokeBytes_eq (offset : Nat) : ∀ (data : List UInt8) (i : Nat) (old : Nat → UInt8), offset + i + data.length ≤ 2 ^ 32 →
    ∀ x, pokeBytes old offset data i x =
      if offset + i ≤ x ∧ x < offset + i + data.length then data.getD (x - (offset + i)) 0 else old x
  | [], i, old, _, x => by
    rw [if_neg (by simp only [length_nil]; omega)]
    rfl
  | b :: bs, i, old, h, x => by
    rw [length_cons] at h
    rw [pokeBytes, pokeBytes_eq offset bs (i + 1) _ (by omega), Nat.mod_eq_of_lt (by omega), length_cons]
    by_cases hx : x = offset + i
    · subst hx
      rw [if_neg (by omega), if_pos (by omega), update_self, Nat.sub_self]
      rfl
    · by_cases hin : offset + (i + 1) ≤ x ∧ x < offset + (i + 1) + bs.length
      · rw [if_pos hin, if_pos (by omega), show x - (offset + i) = x - (offset + (i + 1)) + 1 by omega]
        rfl
      · rw [if_neg hin, update_of_ne hx, if_neg (by omega)]

theorem write_answer {offset w : Nat} {data : List UInt8} (h : (fs.write e k offset data).2 = some w) : w = data.length := by
  unfold write at h
  split at h
  · rename_i hnil
    rw [hnil]
    exact (some.inj h).symm
  dsimp only at h
  split at h
  · cases h
  · rw [apply_ite Prod.snd, ite_none_right_eq_some] at h
    exact (some.inj h.2).symm

structure Ensured (fs : Fs) (k : Nat) (fs1 : Fs) : Prop where
  vol : fs1.vol = fs.vol
  count : fs1.count = fs.count
  others : ∀ j, j ≠ k → fs1.files j = fs.files j
  name : (fs1.files k).name = (fs.files k).name
  inode : (fs1.files k).inode = (fs.files k).inode
  size : (fs1.files k).size = (fs.files k).size
  ptr : ((fs1.files k).data = (fs.files k).data ∧ fs1.next = fs.next) ∨ ((fs1.files k).data = fs.next ∧ fs1.next = fs.next + 1)
  bufs : ∀ p, p ≠ fs.next → fs1.bufs p = fs.bufs p
  bytes : ∀ x < (fs.files k).size, fs1.byte k x = fs.byte k x

theorem ensureCapacity_cases (fs : Fs) (e : Heap) (k needed : Nat) : fs.ensureCapacity e k needed = (fs, .oom) ∨
    ((fs.ensureCapacity e k needed).2 = .ok ∧ Ensured fs k (fs.ensureCapacity e k needed).1) := by
  unfold ensureCapacity
  dsimp only
  split
  · exact .inr ⟨rfl, rfl, rfl, fun _ _ => rfl, rfl, rfl, rfl, .inl ⟨rfl, rfl⟩, fun _ _ => rfl, fun _ _ => rfl⟩
  split
  · exact .inl rfl
  · refine .inr ⟨rfl, rfl, rfl, fun j hj => update_of_ne hj _ _, ?_, ?_, ?_, .inr ⟨?_, rfl⟩, fun p hp => update_of_ne hp _ _,
      fun x hx => ?_⟩
    all_goals simp only [setFile, newBuf, byte, update_self]
    exact if_pos hx

structure Poked (fs : Fs) (k offset : Nat) (data : List UInt8) (r : Fs × Option Nat) : Prop where
  count : r.1.count = fs.count
  others : ∀ j, j ≠ k → r.1.files j = fs.files j
  name : (r.1.files k).name = (fs.files k).name
  inode : (r.1.files k).inode = (fs.files k).inode
  ptr : ((r.1.files k).data = (fs.files k).data ∧ r.1.next = fs.next) ∨ ((r.1.files k).data = fs.next ∧ r.1.next = fs.next + 1)
  bufs : ∀ p, p ≠ fs.next → p ≠ (r.1.files k).data → r.1.bufs p = fs.bufs p
  size : (r.1.files k).size = max (fs.files k).size (offset + data.length)
  written : ∀ x, offset ≤ x → x < offset + data.length → r.1.byte k x = data.getD (x - offset) 0
  kept : ∀ x < (fs.files k).size, x < offset ∨ offset + data.length ≤ x → r.1.byte k x = fs.byte k x
  vol : r.1.vol = (fs.vol.storeData (fs.files k).inode (r.1.byte k) (r.1.files k).size).1
  answer : r.2 =
    if (fs.vol.storeData (fs.files k).inode (r.1.byte k) (r.1.files k).size).2 = .ok then some data.length else none

/-- **A write that does not wrap around** fails for want of memory, or goes to the buffer and from there to disk. -/
theorem write_poked {offset : Nat} {data : List UInt8} (hne : data ≠ []) (hlt : offset + data.length < 2 ^ 32) :
    fs.write e k offset data = (fs, none) ∨ Poked fs k offset data (fs.write e k offset data) := by
  unfold write
  rw [if_neg hne]
  dsimp only
  rw [Nat.mod_eq_of_lt hlt]
  rcases ensureCapacity_cases fs e k (offset + data.length) with hr | ⟨hok, hen⟩
  · rw [hr]
    exact .inl rfl
  refine .inr ?_
  generalize fs.ensureCapacity e k (offset + data.length) = r at hok hen ⊢
  rw [if_neg (not_not.2 hok)]
  generalize hsz : (if (r.1.files k).size < offset + data.length then offset + data.length else (r.1.files k).size) = size
  generalize hby : pokeBytes (r.1.bufs (r.1.files k).data).bytes offset data 0 = bytes
  have hsize : size = max (fs.files k).size (offset + data.length) := by
    rw [← hsz, hen.size]
    split <;> omega
  have hbytes : ∀ x, bytes x = if offset ≤ x ∧ x < offset + data.length then data.getD (x - offset) 0 else r.1.byte k x := by
    intro x
    rw [← hby, pokeBytes_eq offset data 0 _ (by omega)]
    rfl
  rw [← apply_ite (Prod.mk _)]
  have hbyte : ∀ x, ({ r.1.setFile k { r.1.files k with size := size } with
      bufs := update r.1.bufs (r.1.files k).data { r.1.bufs (r.1.files k).data with bytes := bytes },
      vol := (r.1.vol.storeData (r.1.files k).inode bytes size).1 } : Fs).byte k x = bytes x := by
    intro x
    simp only [byte, setFile, update_self]
  refine ⟨hen.count, fun j hj => ?_, ?_, ?_, ?_, fun p hp hpd => ?_, ?_, fun x h1 h2 => ?_, fun x hx hout => ?_, ?_, ?_⟩
  · exact (update_of_ne hj _ _).trans (hen.others j hj)
  · simp only [setFile, update_self, hen.name]
  · simp only [setFile, update_self, hen.inode]
  · simp only [setFile, update_self, hen.ptr]
  · simp only [setFile, update_self] at hpd
    exact (update_of_ne hpd _ _).trans (hen.bufs p hp)
  · simp only [setFile, update_self, hsize]
  · rw [hbyte, hbytes, if_pos ⟨h1, h2⟩]
  · rw [hbyte, hbytes, if_neg (by omega)]
    exact hen.bytes x hx
  · simp only [funext hbyte]
    simp only [setFile, update_self, hen.vol, hen.inode]
  · simp only [funext hbyte]
    simp only [setFile, update_self, hen.vol, hen.inode]

end Fs
end Noxis
