import Noxis.Dir
/-!
# DirSpec — directories as lists of records

`Vol.entries v i` is the list of records in directory `i`.  On a sound volume `_dir_lookup_name` is a search in that list,
`_dir_add_entry` appends to it and `_dir_remove_entry` erases from it; every other file is the same before and after
(`StoreSpec.others`).
-/
namespace Noxis

open List Option Function Vol Nat Dirent

/-! ## Records -/

theorem direntAt_name_length (d : Nat → UInt8) (k : Nat) : (direntAt d k).name.length = (d (32 * k + 6)).toNat := by
  simp [direntAt]

theorem direntAt_shift {d d' : Nat → UInt8} {k k' : Nat} (h : ∀ x < 32, d' (32 * k' + x) = d (32 * k + x))
    (hlen : (direntAt d k).name.length ≤ 24) : direntAt d' k' = direntAt d k := by
  rw [direntAt_name_length] at hlen
  have hino : leRead d' (32 * k') 4 = leRead d (32 * k) 4 := by
    have h0 := h 0 (by omega)
    have h1 := h 1 (by omega)
    have h2 := h 2 (by omega)
    have h3 := h 3 (by omega)
    simp only [add_zero] at h0
    simp only [leRead, h0, h1, Nat.add_assoc, h2, h3]
  unfold direntAt
  rw [hino, h 7 (by omega), h 6 (by omega)]
  congr 1
  apply map_congr_left
  intro j hj
  have hlt := mem_range.1 hj
  have hb := h (8 + j) (by omega)
  simpa only [Nat.add_assoc] using hb

theorem direntAt_congr {d d' : Nat → UInt8} {k : Nat} (h : ∀ x, x < 32 * k + 32 → d' x = d x)
    (hlen : (direntAt d k).name.length ≤ 24) : direntAt d' k = direntAt d k :=
  direntAt_shift (fun x hx => h _ (by omega)) hlen

theorem putDirent_of_lt {d : Nat → UInt8} {off ino kind : Nat} {nm : Name} {x : Nat} (hx : x < off) :
    putDirent d off ino kind nm x = d x := by
  unfold putDirent
  rw [update_of_ne (by omega), if_neg (by omega), update_of_ne (by omega), update_of_ne (by omega),
    leWrite_of_lt (by omega), leWrite_of_lt (by omega)]

/-- **The record that was written reads back**, its name cut at 23 bytes. -/
theorem direntAt_putDirent (d : Nat → UInt8) (k ino kind : Nat) (nm : Name) (hino : ino < 2 ^ 32) (hkind : kind < 256) :
    direntAt (putDirent d (32 * k) ino kind nm) k = ⟨ino, kind, nm.take 23⟩ := by
  have hfield : ∀ x, x < 32 * k + 8 → putDirent d (32 * k) ino kind nm x =
      update (update (leWrite (leWrite d (32 * k) 4 ino) (32 * k + 4) 2 32) (32 * k + 7) (UInt8.ofNat kind))
        (32 * k + 6) (UInt8.ofNat (min nm.length 23)) x := by
    intro x hx
    unfold putDirent
    rw [update_of_ne (by omega), if_neg (by omega)]
  have hread : leRead (putDirent d (32 * k) ino kind nm) (32 * k) 4 = ino := by
    have hw : leRead (putDirent d (32 * k) ino kind nm) (32 * k) 4 = leRead (leWrite d (32 * k) 4 ino) (32 * k) 4 := by
      apply leRead_congr
      intro x _ h2
      rw [hfield x (by omega), update_of_ne (by omega), update_of_ne (by omega), leWrite_of_lt (by omega)]
    rw [hw, leRead_leWrite]
    exact mod_eq_of_lt hino
  have hk : (putDirent d (32 * k) ino kind nm (32 * k + 7)).toNat = kind := by
    rw [hfield _ (by omega), update_of_ne (by omega), update_self, toNat_ofNat_byte, mod_eq_of_lt hkind]
  have hl : (putDirent d (32 * k) ino kind nm (32 * k + 6)).toNat = min nm.length 23 := by
    rw [hfield _ (by omega), update_self, toNat_ofNat_byte]
    exact mod_eq_of_lt (by omega)
  unfold direntAt
  rw [hread, hk, hl]
  congr 1
  refine ext_getElem (by simp [min_comm]) (fun j h1 h2 => ?_)
  have hj : j < min nm.length 23 := by simpa using h1
  rw [getElem_map, getElem_range, getElem_take]
  unfold putDirent
  rw [update_of_ne (by omega), if_pos (by omega), show 32 * k + 8 + j - (32 * k + 8) = j by omega]
  exact getD_eq_getElem _ _ (by omega)

theorem direntAt_dotData_zero (ino parent : Nat) (hino : ino < 2 ^ 32) : direntAt (dotData ino parent) 0 = ⟨ino, ftDir, [46]⟩ := by
  have hread : leRead (dotData ino parent) 0 4 = ino := by
    have hw : leRead (dotData ino parent) 0 4 = leRead (leWrite (fun _ => 0) 0 4 ino) 0 4 := by
      apply leRead_congr
      intro x _ h2
      unfold dotData
      rw [update_of_ne (by omega), update_of_ne (by omega), update_of_ne (by omega),
        update_of_ne (by omega), leWrite_of_lt (by omega), leWrite_of_lt (by omega),
        update_of_ne (by omega), update_of_ne (by omega), update_of_ne (by omega),
        leWrite_of_lt (by omega)]
    rw [hw, leRead_leWrite]
    exact mod_eq_of_lt hino
  unfold direntAt
  rw [hread]
  rfl

theorem direntAt_dotData_one (ino parent : Nat) (hparent : parent < 2 ^ 32) :
    direntAt (dotData ino parent) 1 = ⟨parent, ftDir, [46, 46]⟩ := by
  have hread : leRead (dotData ino parent) 32 4 = parent := by
    generalize hd : update (update (update (leWrite (leWrite (fun _ => 0) 0 4 ino) 4 2 32) 6 1) 7
      (UInt8.ofNat ftDir)) 8 46 = d
    have hw : leRead (dotData ino parent) 32 4 = leRead (leWrite d 32 4 parent) 32 4 := by
      apply leRead_congr
      intro x h1 h2
      unfold dotData
      rw [hd, update_of_ne (by omega), update_of_ne (by omega), update_of_ne (by omega),
        update_of_ne (by omega), leWrite_of_lt (by omega)]
    rw [hw, leRead_leWrite]
    exact mod_eq_of_lt hparent
  unfold direntAt
  rw [hread]
  rfl

/-! ## The contents of a file -/

def Vol.byteAt (v : Vol) (i x : Nat) : UInt8 := v.disk (ptr v.disk (v.inode i) (slotOf (x / 512))) (x % 512)

def Vol.Mapped (v : Vol) (i : Nat) : Prop := ∀ l, l * 512 < (v.inode i).size → ptr v.disk (v.inode i) (slotOf l) ≠ 0

def Vol.entries (v : Vol) (i : Nat) : List Dirent := (List.range ((v.inode i).size / 32)).map (direntAt (v.byteAt i))

structure Vol.DirOk (v : Vol) (i : Nat) : Prop where
  isDir : (v.inode i).isDir = true
  whole : (v.inode i).size % 32 = 0
  mapped : v.Mapped i
  names : ∀ r ∈ v.entries i, r.name.length ≤ 23

section
variable {v v1 : Vol} {i : Nat} {e : Heap}

theorem ptr_slotOf_ge (d : Nat → Nat → UInt8) (n : Inode) {l : Nat} (hl : 138 ≤ l) : ptr d n (slotOf l) = 0 := by
  unfold slotOf
  rw [if_neg (by omega)]
  exact if_neg (by omega)

theorem Vol.Mapped.size_le (h : v.Mapped i) : (v.inode i).size ≤ 138 * 512 := by
  by_contra hlt
  exact h 138 (by omega) (ptr_slotOf_ge _ _ (le_refl 138))

theorem iread_of_lt (hi : i < v.sb.inodeCount) : v.iread i = some (v.inode i) := by
  unfold iread
  rw [if_neg (by omega)]

theorem loadData_mapped (he : e.Ok) (hi : i < v.sb.inodeCount) (hm : v.Mapped i) :
    ∃ buf, v.loadData e i = some ((v.inode i).size, some buf) ∧ ∀ x < (v.inode i).size, buf x = v.byteAt i x := by
  unfold loadData
  rw [iread_of_lt hi, map_some, he.kmalloc]
  by_cases h0 : (v.inode i).size = 0
  · refine ⟨update (e.junk [0]) 0 0, by rw [if_pos h0, h0]; rfl, fun x hx => by omega⟩
  · refine ⟨v.loadBlocks (v.inode i) (e.junk [0]) (((v.inode i).size + 511) / 512), by rw [if_neg h0]; rfl, fun x hx => ?_⟩
    rw [loadBlocks_eq, if_pos ⟨hx, by omega, hm (x / 512) (by omega)⟩]
    rfl

theorem loadData_cases (e : Heap) (hi : i < v.sb.inodeCount) (hm : v.Mapped i) :
    (∃ buf, v.loadData e i = some ((v.inode i).size, some buf) ∧ ∀ x < (v.inode i).size, buf x = v.byteAt i x) ∨
      (¬ e.Ok ∧ ∃ size, v.loadData e i = some (size, none)) := by
  by_cases hok : e.ok [0] = true
  · -- the one allocation it makes succeeds
    have hcalm : v.loadData e i = v.loadData ⟨fun _ => true, e.junk⟩ i := by
      unfold loadData Heap.kmalloc
      rw [if_pos hok]
      rfl
    rw [hcalm]
    exact .inl (loadData_mapped (fun _ => rfl) hi hm)
  · refine .inr ⟨fun he => hok (he [0]), ?_⟩
    unfold loadData Heap.kmalloc
    rw [if_neg hok, iread_of_lt hi, map_some, map_none, map_none]
    split
    · exact ⟨_, rfl⟩
    · exact ⟨_, rfl⟩

theorem SameFile.byteAt_eq (h : SameFile v v1 i) {x : Nat} (h0 : ptr v.disk (v.inode i) (slotOf (x / 512)) ≠ 0) :
    v1.byteAt i x = v.byteAt i x := by
  unfold byteAt
  rw [h.inode, h.ptrs, h.blocks _ h0]

theorem SameFile.mapped (h : SameFile v v1 i) (hm : v.Mapped i) : v1.Mapped i := by
  intro l hl
  rw [h.inode] at hl ⊢
  rw [h.ptrs]
  exact hm l hl

theorem Vol.DirOk.lt (h : v.DirOk i) {k : Nat} (hk : k < (v.inode i).size / 32) : (direntAt (v.byteAt i) k).name.length ≤ 24 :=
  le_succ_of_le (h.names _ (mem_map.2 ⟨k, mem_range.2 hk, rfl⟩))

theorem Vol.DirOk.direntAt_eq (h : v.DirOk i) {d : Nat → UInt8} (hd : ∀ x < (v.inode i).size, d x = v.byteAt i x) {k : Nat}
    (hk : k < (v.inode i).size / 32) : direntAt d k = direntAt (v.byteAt i) k :=
  direntAt_congr (fun x hx => hd x (by omega)) (h.lt hk)

theorem SameFile.entries_eq (h : SameFile v v1 i) (hd : v.DirOk i) : v1.entries i = v.entries i := by
  unfold entries
  rw [h.inode]
  apply map_congr_left
  intro k hk
  exact hd.direntAt_eq (fun x hx => h.byteAt_eq (hd.mapped _ (by omega))) (mem_range.1 hk)

theorem SameFile.dirOk (h : SameFile v v1 i) (hd : v.DirOk i) : v1.DirOk i where
  isDir := by rw [h.inode]; exact hd.isDir
  whole := by rw [h.inode]; exact hd.whole
  mapped := h.mapped hd.mapped
  names := by rw [h.entries_eq hd]; exact hd.names

/-! ## Looking up -/

def Vol.named (v : Vol) (dir : Nat) (nm : Name) : Option Nat := ((v.entries dir).find? (Dirent.hit nm)).map Dirent.inode

theorem Vol.DirOk.findEntry_eq (h : v.DirOk i) {d : Nat → UInt8} (hd : ∀ x < (v.inode i).size, d x = v.byteAt i x) (nm : Name) :
    findEntry d ((v.inode i).size / 32) nm = findEntry (v.byteAt i) ((v.inode i).size / 32) nm := by
  unfold findEntry
  apply find?_congr
  intro k hk
  rw [h.direntAt_eq hd (mem_range.1 hk)]

theorem Vol.find_entries (v : Vol) (i : Nat) (nm : Name) : (v.entries i).find? (hit nm) =
    (findEntry (v.byteAt i) ((v.inode i).size / 32) nm).map (direntAt (v.byteAt i)) :=
  find?_map ..

/-- **`_dir_lookup_name` searches the records.** -/
theorem dirLookupName_eq (he : e.Ok) (hi : i < v.sb.inodeCount) (hd : v.DirOk i) (nm : Name) :
    v.dirLookupName e i nm = (v.named i nm).filter (· != 2 ^ 32 - 1) := by
  obtain ⟨buf, hload, hbuf⟩ := loadData_mapped he hi hd.mapped
  unfold dirLookupName named
  rw [iread_of_lt hi, hload, v.find_entries]
  simp only [hd.isDir, hd.findEntry_eq hbuf]
  cases hf : findEntry (v.byteAt i) ((v.inode i).size / 32) nm with
  | none => rfl
  | some k =>
    have hk : k < (v.inode i).size / 32 := mem_range.1 (mem_of_find?_eq_some hf)
    simp only [hd.direntAt_eq hbuf hk, map_some, Option.filter]
    by_cases hx : (direntAt (v.byteAt i) k).inode = 2 ^ 32 - 1
    · simp [hx]
    · simp

/-! ## What `_store_data` does to the contents -/

section
variable {data : Nat → UInt8} {size : Nat} {r : Vol × Status}

section
variable (h : StoreSpec v i data size r)
include h

section

variable (hok : r.2 = .ok) (hs : size + 511 < 2 ^ 32)
include hok hs

theorem StoreSpec.size_le : size ≤ 138 * 512 := by
  by_contra hlt
  refine (h.written hok 138 ?_).1 (ptr_slotOf_ge _ _ (le_refl 138))
  unfold blocksFor
  rw [mod_eq_of_lt hs]
  omega

theorem StoreSpec.mapped : r.1.Mapped i := by
  intro l hl
  rw [h.newSize hok] at hl
  refine (h.written hok l ?_).1
  rw [blocksFor_eq (h.size_le hok hs)]
  omega

theorem StoreSpec.byteAt_ok {x : Nat} (hx : x < size) : r.1.byteAt i x = data x := by
  have hle := h.size_le hok hs
  have hw := (h.written hok (x / 512) (by rw [blocksFor_eq hle]; omega)).2 (x % 512) (mod_lt _ (by decide)) (by omega)
  rw [show x / 512 * 512 + x % 512 = x by omega] at hw
  exact hw

end

theorem StoreSpec.byteAt_partly {x : Nat} (h0 : ptr v.disk (v.inode i) (slotOf (x / 512)) ≠ 0) :
    r.1.byteAt i x = v.byteAt i x ∨ (x < size ∧ r.1.byteAt i x = data x) := by
  have hk := h.kept _ h0
  have hp := h.partly (x / 512) h0 (x % 512)
  unfold byteAt
  rw [hk]
  rcases hp with hp | ⟨-, hlt, hp⟩
  · exact .inl hp
  · rw [show x / 512 * 512 + x % 512 = x by omega] at hlt hp
    exact .inr ⟨hlt, hp⟩

theorem StoreSpec.mapped_oom (hoom : r.2 = .oom) (hm : v.Mapped i) : r.1.Mapped i := by
  intro l hl
  rw [h.failed hoom] at hl
  rw [h.kept _ (hm l hl)]
  exact hm l hl

theorem StoreSpec.count : r.1.sb.inodeCount = v.sb.inodeCount := by rw [h.sb]

theorem StoreSpec.rootIno : r.1.sb.rootIno = v.sb.rootIno := by rw [h.sb]

theorem StoreSpec.allocated (j : Nat) : r.1.Allocated j ↔ v.Allocated j :=
  allocated_congr h.count h.inUse

theorem StoreSpec.isDir {j : Nat} (hj : j < v.sb.inodeCount) : (r.1.inode j).isDir = (v.inode j).isDir := by
  by_cases hji : j = i
  · subst hji
    unfold Inode.isDir
    rw [h.mode]
  · rw [h.inodes j hj hji]

end

end

/-! ## Adding a record -/

theorem dirAddEntry_eq (he : e.Ok) (hi : i < v.sb.inodeCount) (hm : v.Mapped i) (nm : Name) (ino kind : Nat) :
    ∃ d, (∀ x < (v.inode i).size, d x = v.byteAt i x) ∧ v.dirAddEntry e i nm ino kind =
      v.storeData i (putDirent d (v.inode i).size ino kind nm) ((v.inode i).size + 32) := by
  obtain ⟨buf, hload, hbuf⟩ := loadData_mapped (he.sub 0) hi hm
  have hle := hm.size_le
  refine ⟨fun x => if x < (v.inode i).size then buf x else e.junk [1] x, fun x hx => ?_, ?_⟩
  · show (if x < (v.inode i).size then buf x else _) = _
    rw [if_pos hx, hbuf x hx]
  · have hkm : e.kmallocOf 1 ((((v.inode i).size + 32) % 2 ^ 32 + 511) % 2 ^ 32 / 512 * 512) = some (e.junk [1]) := by
      unfold Heap.kmallocOf
      rw [if_neg (by omega), he.kmalloc]
    unfold dirAddEntry
    rw [iread_of_lt hi, hload]
    simp only [hkm]
    rw [mod_eq_of_lt (show (v.inode i).size + 32 < 2 ^ 32 by omega)]

structure AddSpec (v : Vol) (i : Nat) (ent : Dirent) (r : Vol × Status) : Prop where
  store : ∃ data size, StoreSpec v i data size r
  dirOk : r.1.DirOk i
  added : r.2 = .ok → r.1.entries i = v.entries i ++ [ent]
  failed : r.2 ≠ .ok → r.1.entries i = v.entries i

/-- **`_dir_add_entry` appends a record**, or leaves the records as they are. -/
theorem dirAddEntry_spec (he : e.Ok) (h : v.Sound) (hi : v.Allocated i) (hd : v.DirOk i) (nm : Name) {ino kind : Nat}
    (hino : ino < 2 ^ 32) (hkind : kind < 256) : AddSpec v i ⟨ino, kind, nm.take 23⟩ (v.dirAddEntry e i nm ino kind) := by
  obtain ⟨d, hbytes, heq⟩ := dirAddEntry_eq he hi.1 hd.mapped nm ino kind
  have hle := hd.mapped.size_le
  have hwhole := hd.whole
  have hlt : (v.inode i).size + 32 < 2 ^ 32 := by omega
  have hst := storeData_spec h hi (putDirent d (v.inode i).size ino kind nm) hlt
  rw [← heq] at hst
  generalize v.dirAddEntry e i nm ino kind = r at hst ⊢
  -- the records that were there are where they were
  have hold : ∀ k, k < (v.inode i).size / 32 → (∀ x < (v.inode i).size, r.1.byteAt i x = v.byteAt i x) →
      direntAt (r.1.byteAt i) k = direntAt (v.byteAt i) k := fun k hk hb => hd.direntAt_eq hb hk
  have hdir : (r.1.inode i).isDir = true := by rw [hst.isDir hi.1]; exact hd.isDir
  rcases hst.status with hok | hoom
  · have hsz := hst.newSize hok
    have hb : ∀ x < (v.inode i).size + 32, r.1.byteAt i x = putDirent d (v.inode i).size ino kind nm x :=
      fun x hx => hst.byteAt_ok hok (by omega) hx
    have hnew : r.1.entries i = v.entries i ++ [⟨ino, kind, nm.take 23⟩] := by
      unfold entries
      rw [hsz, show ((v.inode i).size + 32) / 32 = (v.inode i).size / 32 + 1 by omega, range_succ, map_append]
      congr 1
      · apply map_congr_left
        intro k hk
        refine hold k (mem_range.1 hk) (fun x hx => ?_)
        rw [hb x (by omega), putDirent_of_lt hx, hbytes x hx]
      · have hput := direntAt_putDirent d ((v.inode i).size / 32) ino kind nm hino hkind
        rw [show 32 * ((v.inode i).size / 32) = (v.inode i).size by omega] at hput
        rw [map_singleton, ← hput]
        refine congrArg (fun x => [x]) (direntAt_congr (fun x hx => hb x (by omega)) ?_)
        rw [hput]
        simp only [length_take]
        omega
    refine ⟨⟨_, _, hst⟩, ⟨hdir, by rw [hsz]; omega, hst.mapped hok (by omega), ?_⟩, fun _ => hnew, fun hne => absurd hok hne⟩
    rw [hnew]
    intro ent hent
    rcases mem_append.1 hent with hent | hent
    · exact hd.names ent hent
    · rw [mem_singleton.1 hent]
      simp only [length_take]
      omega
  · have hin := hst.failed hoom
    have hsame : r.1.entries i = v.entries i := by
      unfold entries
      rw [hin]
      apply map_congr_left
      intro k hk
      refine hold k (mem_range.1 hk) (fun x hx => ?_)
      rcases hst.byteAt_partly (x := x) (hd.mapped _ (by omega)) with hp | ⟨-, hp⟩
      · exact hp
      · rw [hp, putDirent_of_lt hx, hbytes x hx]
    refine ⟨⟨_, _, hst⟩, ⟨hdir, by rw [hin]; exact hwhole, hst.mapped_oom hoom hd.mapped, by rw [hsame]; exact hd.names⟩,
      fun hok => ?_, fun _ => hsame⟩
    rw [hoom] at hok
    cases hok

/-! ## Removing a record -/

theorem findEntry_some {d : Nat → UInt8} {count k : Nat} {nm : Name} (h : findEntry d count nm = some k) :
    k < count ∧ (direntAt d k).hit nm = true ∧ ∀ j < k, (direntAt d j).hit nm = false := by
  obtain ⟨hhit, hlt, hfirst⟩ := find?_range_eq_some.1 h
  exact ⟨mem_range.1 hlt, hhit, fun j hj => by simpa using hfirst j hj⟩

theorem dirRemoveEntry_eq (he : e.Ok) (hi : i < v.sb.inodeCount) (hd : v.DirOk i) (nm : Name) :
    (findEntry (v.byteAt i) ((v.inode i).size / 32) nm = none ∧ v.dirRemoveEntry e i nm = (v, .notFound)) ∨
    ∃ k d, findEntry (v.byteAt i) ((v.inode i).size / 32) nm = some k ∧
      (∀ x < (v.inode i).size - 32, d x = compact (v.byteAt i) k x) ∧
      v.dirRemoveEntry e i nm = v.storeData i d ((v.inode i).size - 32) := by
  obtain ⟨buf, hload, hbuf⟩ := loadData_mapped (he.sub 0) hi hd.mapped
  have hwhole := hd.whole
  unfold dirRemoveEntry
  rw [iread_of_lt hi, hload]
  simp only [hd.isDir, hd.findEntry_eq hbuf, he.kmalloc]
  cases hf : findEntry (v.byteAt i) ((v.inode i).size / 32) nm with
  | none => exact .inl ⟨rfl, rfl⟩
  | some k =>
    have hk := (findEntry_some hf).1
    set r := (v.inode i).size / 32 - 1
    refine .inr ⟨k, fun x => if x < r * 32 then compact buf k x else e.junk [1] x, rfl, fun x hx => ?_, ?_⟩
    · show (if x < r * 32 then compact buf k x else _) = _
      rw [if_pos (by omega)]
      unfold compact
      rw [hbuf x (by omega), hbuf (x + 32) (by omega)]
    · rw [show r * 32 = (v.inode i).size - 32 by omega]
      rfl

theorem direntAt_compact {d d' : Nat → UInt8} {k j : Nat} (hb : ∀ x < 32 * j + 32, d' x = compact d k x)
    (hlen : (direntAt d (if j < k then j else j + 1)).name.length ≤ 24) :
    direntAt d' j = direntAt d (if j < k then j else j + 1) := by
  by_cases hj : j < k
  · rw [if_pos hj] at hlen ⊢
    refine direntAt_shift (fun x hx => ?_) hlen
    rw [hb _ (by omega), compact, if_pos (by omega)]
  · rw [if_neg hj] at hlen ⊢
    refine direntAt_shift (fun x hx => ?_) hlen
    rw [hb _ (by omega), compact, if_neg (by omega), show 32 * j + x + 32 = 32 * (j + 1) + x by omega]

theorem entries_eraseIdx (v : Vol) (i k : Nat) (hk : k < (v.inode i).size / 32) : (v.entries i).eraseIdx k =
    (range ((v.inode i).size / 32 - 1)).map (fun j => direntAt (v.byteAt i) (if j < k then j else j + 1)) := by
  have hlen : (v.entries i).length = (v.inode i).size / 32 := by simp [entries]
  refine ext_getElem (by rw [length_eraseIdx_of_lt (by rw [hlen]; exact hk), hlen]; simp) (fun j h1 h2 => ?_)
  rw [getElem_eraseIdx]
  by_cases hj : j < k
  · simp [entries, hj]
  · simp [entries, hj]

theorem entries_eraseP (v : Vol) (i : Nat) (nm : Name) {k : Nat}
    (hf : findEntry (v.byteAt i) ((v.inode i).size / 32) nm = some k) :
    (v.entries i).eraseP (hit nm) = (v.entries i).eraseIdx k := by
  obtain ⟨hk, hhit, hfirst⟩ := findEntry_some hf
  have hidx : (v.entries i).findIdx? (hit nm) = some k := by
    rw [findIdx?_eq_some_iff_getElem]
    refine ⟨by simp [entries, hk], by simpa [entries] using hhit, fun j hj => ?_⟩
    have hj' := hfirst j hj
    simpa [entries] using hj'
  rw [eraseP_eq_eraseIdx, hidx]

structure RemoveSpec (v : Vol) (i : Nat) (nm : Name) (r : Vol × Status) : Prop where
  ok : r.2 = .ok
  store : ∃ data, StoreSpec v i data ((v.inode i).size - 32) r
  dirOk : r.1.DirOk i
  erased : r.1.entries i = (v.entries i).eraseP (Dirent.hit nm)
  size : (r.1.inode i).size + 32 = (v.inode i).size

theorem missing_of_mapped (hm : v.Mapped i) {size : Nat} (hs : size ≤ (v.inode i).size) :
    missing v (v.inode i) 0 ((size + 511) / 512) = 0 := by
  have hdata : (Finset.Ico 0 ((size + 511) / 512)).filter (fun l => ptr v.disk (v.inode i) (slotOf l) = 0) = ∅ := by
    rw [Finset.filter_eq_empty_iff]
    intro l hl
    have hlt := (Finset.mem_Ico.1 hl).2
    exact hm l (by omega)
  unfold missing
  rw [hdata, Finset.card_empty, if_neg]
  rintro ⟨hlt, -, h0⟩
  -- block 10 is listed in the indirect block
  exact hm 10 (by omega) (if_neg (fun hc => hc.2 h0))

/-- **`_dir_remove_entry` erases the first record with this name**, and cannot run out of blocks. -/
theorem dirRemoveEntry_spec (he : e.Ok) (h : v.Sound) (hi : v.Allocated i) (hd : v.DirOk i) (nm : Name) {ino : Nat}
    (hn : v.named i nm = some ino) : RemoveSpec v i nm (v.dirRemoveEntry e i nm) := by
  have hle := hd.mapped.size_le
  have hwhole := hd.whole
  rcases dirRemoveEntry_eq he hi.1 hd nm with ⟨hnone, -⟩ | ⟨k, d, hf, hbytes, heq⟩
  · unfold named at hn
    rw [v.find_entries, hnone] at hn
    cases hn
  have hk := (findEntry_some hf).1
  have hlt : (v.inode i).size - 32 < 2 ^ 32 := by omega
  have hst := storeData_spec h hi d hlt
  set w := (v.inode i).size - 32
  have hok : (v.storeData i d w).2 = .ok := by
    refine hst.enough (by rw [blocksFor_eq (by omega)]; omega) ?_
    rw [blocksFor_eq (by omega), missing_of_mapped hd.mapped (by omega)]
    exact zero_le _
  rw [heq]
  generalize v.storeData i d w = r at hst hok
  have hsz := hst.newSize hok
  have herased : r.1.entries i = (v.entries i).eraseP (hit nm) := by
    rw [entries_eraseP v i nm hf, entries_eraseIdx v i k hk]
    unfold entries
    rw [hsz, show w / 32 = (v.inode i).size / 32 - 1 by omega]
    apply map_congr_left
    intro j hj
    have hlt := mem_range.1 hj
    refine direntAt_compact (fun x hx => ?_) (hd.lt (by split <;> omega))
    rw [hst.byteAt_ok hok (by omega) (by omega), hbytes x (by omega)]
  refine ⟨hok, ⟨d, hst⟩, ⟨by rw [hst.isDir hi.1]; exact hd.isDir, by rw [hsz]; omega, hst.mapped hok (by omega), ?_⟩, herased,
    by rw [hsz]; omega⟩
  rw [herased]
  exact fun ent hent => hd.names ent (mem_of_mem_eraseP hent)

end

end Noxis
