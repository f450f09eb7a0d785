import Noxis.Written
/-!
# Overwrite — what a write through the cache should do, and when it does

`overwrite` is the meaning of a write at an offset: old bytes, zeros up to the offset, the data.  `WritesFile` asks this of
`noxfs_write`, and that it refuses what does not fit and stores only below the capacity.  Two things go wrong.  Bytes of
the buffer behind the size are zero only where `_ensure_capacity` has put zeros, so a write that leaves a gap inside the
capacity shows whatever `_load_data` or `O_TRUNC` left there.  And `offset + len` is 32-bit arithmetic, so a write across
2^32 asks for little room and stores far behind it (`write_right_iff`).
-/
namespace Noxis

open List Option Function Nat
namespace Fs

/-- A write at an offset: the bytes before it, with zeros for those the file did not have, then the data, then the rest. -/
def overwrite (old : List UInt8) (offset : Nat) (data : List UInt8) : List UInt8 :=
  (old ++ List.replicate (offset - old.length) 0).take offset ++ data ++ old.drop (offset + data.length)

theorem overwrite_length (old : List UInt8) (offset : Nat) (data : List UInt8) :
    (overwrite old offset data).length = max old.length (offset + data.length) := by
  unfold overwrite
  simp only [length_append, length_take, length_replicate, length_drop]
  omega

theorem overwrite_getD (old : List UInt8) (offset : Nat) (data : List UInt8) (x : Nat) : (overwrite old offset data).getD x 0 =
      if offset ≤ x ∧ x < offset + data.length then data.getD (x - offset) 0 else old.getD x 0 := by
  have hfront : ((old ++ replicate (offset - old.length) 0).take offset).length = offset := by
    simp only [length_append, length_take, length_replicate]
    omega
  unfold overwrite
  simp only [getD_eq_getElem?_getD, append_assoc]
  by_cases h1 : x < offset
  · rw [if_neg (by omega), getElem?_append_left (by omega), getElem?_take_of_lt h1]
    by_cases h2 : x < old.length
    · rw [getElem?_append_left h2]
    · rw [getElem?_append_right (by omega), getElem?_replicate_of_lt (by omega), getElem?_eq_none (by omega : old.length ≤ x)]
      rfl
  · rw [getElem?_append_right (by omega), hfront]
    by_cases h2 : x < offset + data.length
    · rw [if_pos ⟨by omega, h2⟩, getElem?_append_left (by omega)]
    · rw [if_neg (by omega), getElem?_append_right (by omega), getElem?_drop]
      congr 2
      omega

theorem content_getD (fs : Fs) (k x : Nat) : (fs.content k).getD x 0 = if x < (fs.files k).size then fs.byte k x else 0 := by
  unfold content
  rw [getD_eq_getElem?_getD]
  by_cases hx : x < (fs.files k).size
  · rw [if_pos hx, getElem?_map, getElem?_range hx]
    rfl
  · rw [if_neg hx, getElem?_eq_none (by rw [length_map, length_range]; omega)]
    rfl

def pokes (offset : Nat) : List UInt8 → Nat → List (Nat × UInt8)
  | [], _ => []
  | b :: bs, i => ((offset + i) % 2 ^ 32, b) :: pokes offset bs (i + 1)

theorem pokeBytes_eq_foldl (offset : Nat) : ∀ (data : List UInt8) (i : Nat) (old : Nat → UInt8),
    pokeBytes old offset data i = (pokes offset data i).foldl (fun m s => update m s.1 s.2) old
  | [], _, _ => rfl
  | _ :: bs, i, _ => pokeBytes_eq_foldl offset bs (i + 1) _

theorem mem_pokes {offset x : Nat} : ∀ {data : List UInt8} {i : Nat}, x ∈ (pokes offset data i).map Prod.fst ↔
    ∃ j, i ≤ j ∧ j < i + data.length ∧ x = (offset + j) % 2 ^ 32
  | [], i => by
    simp only [pokes, map_nil, not_mem_nil, length_nil, false_iff]
    rintro ⟨j, h1, h2, -⟩
    omega
  | b :: bs, i => by
    rw [pokes, map_cons, mem_cons, mem_pokes, length_cons]
    constructor
    · rintro (rfl | ⟨j, h1, h2, rfl⟩)
      · exact ⟨i, le_refl i, by omega, rfl⟩
      · exact ⟨j, by omega, by omega, rfl⟩
    · rintro ⟨j, h1, h2, rfl⟩
      by_cases hj : j = i
      · rw [hj]
        exact .inl rfl
      · exact .inr ⟨j, by omega, by omega, rfl⟩

/-- The indices of the file's buffer that `noxfs_write` stores to: when the buffer grows, those of the copy and of the zero
fill of `_ensure_capacity`, and then those of its own loop. -/
def writeStores (e : Heap) (fs : Fs) (k offset : Nat) (data : List UInt8) : List Nat :=
  let f := fs.files k
  let needed := (offset + data.length) % 2 ^ 32
  if data = [] ∨ (fs.ensureCapacity e k needed).2 ≠ .ok then [] else
  (if needed ≤ f.capacity then [] else List.range f.size ++ List.range' f.size (roundUp needed - f.size)) ++
    (pokes offset data 0).map Prod.fst

/-- A file of this length does not fit: the format has no blocks for it, or there is no memory for a larger buffer, or the
volume has not enough blocks left. -/
def Exceeds (e : Heap) (fs : Fs) (k total : Nat) : Prop :=
  138 * 512 < total ∨ ((fs.files k).capacity < total ∧ e.kmallocOf 0 (roundUp total) = none) ∨
    fs.vol.sb.freeBlocks <
      missing fs.vol (fs.vol.inode (fs.files k).inode) 0 (blocksFor (max (fs.files k).size total))

/-- `noxfs_write` means `overwrite`, refuses what does not fit, and stores only below the capacity. -/
structure WritesFile (e : Heap) (fs : Fs) (k offset : Nat) (data : List UInt8) : Prop where
  content : (fs.write e k offset data).2 = some data.length →
    (fs.write e k offset data).1.content k = overwrite (fs.content k) offset data
  size : (fs.write e k offset data).2 = some data.length →
    ((fs.write e k offset data).1.files k).size = max (fs.files k).size (offset + data.length)
  refused : fs.Exceeds e k (offset + data.length) → (fs.write e k offset data).2 = none
  inside : ∀ x ∈ fs.writeStores e k offset data, x < ((fs.write e k offset data).1.files k).capacity

/-! ## When it does -/

section Right

variable {fs : Fs} {e : Heap} {k offset : Nat} {data : List UInt8}

structure Wrote (fs : Fs) (k offset : Nat) (data : List UInt8) (r : Fs × Option Nat) : Prop where
  answer : ∃ bytes, r.2 =
    if (fs.vol.storeData (fs.files k).inode bytes (max (fs.files k).size (offset + data.length))).2 = .ok
      then some data.length else none
  size : (r.1.files k).size = max (fs.files k).size (offset + data.length)
  capacity : (r.1.files k).capacity =
    if offset + data.length ≤ (fs.files k).capacity then (fs.files k).capacity else roundUp (offset + data.length)
  byte : ∀ x < max (fs.files k).size (offset + data.length), r.1.byte k x =
    if offset ≤ x ∧ x < offset + data.length then data.getD (x - offset) 0
    else if x < (fs.files k).size ∨ offset + data.length ≤ (fs.files k).capacity then fs.byte k x else 0

theorem Wrote.of_ensured {fs1 : Fs} (hne : data ≠ []) (hlt : offset + data.length < 2 ^ 32)
    (hgrow : fs.ensureCapacity e k (offset + data.length) = (fs1, .ok)) (hvol : fs1.vol = fs.vol)
    (hinode : (fs1.files k).inode = (fs.files k).inode) (hsize : (fs1.files k).size = (fs.files k).size)
    (hcap : (fs1.files k).capacity =
      if offset + data.length ≤ (fs.files k).capacity then (fs.files k).capacity else roundUp (offset + data.length))
    (hbyte : ∀ x < max (fs.files k).size (offset + data.length), fs1.byte k x =
      if x < (fs.files k).size ∨ offset + data.length ≤ (fs.files k).capacity then fs.byte k x else 0) :
    Wrote fs k offset data (fs.write e k offset data) := by
  have hmax : (if (fs1.files k).size < offset + data.length then offset + data.length else (fs1.files k).size) =
      max (fs.files k).size (offset + data.length) := by
    rw [hsize]
    split <;> omega
  unfold write
  rw [if_neg hne]
  dsimp only
  rw [mod_eq_of_lt hlt, hgrow]
  dsimp only
  rw [if_neg (not_not.2 rfl), hmax, hvol, hinode]
  rw [← apply_ite (Prod.mk _)]
  refine ⟨⟨_, rfl⟩, ?_, ?_, fun x hx => ?_⟩
  · simp only [setFile, update_self]
  · simp only [setFile, update_self, hcap]
  · simp only [Fs.byte, setFile, update_self]
    rw [pokeBytes_eq offset data 0 _ (by omega)]
    exact if_congr (by rw [add_zero]) rfl (hbyte x hx)

theorem wrote_of_room (hne : data ≠ []) (hlt : offset + data.length < 2 ^ 32)
    (hroom : offset + data.length ≤ (fs.files k).capacity ∨ e.kmallocOf 0 (roundUp (offset + data.length)) ≠ none)
    (hw : Whole (fs.files k)) : Wrote fs k offset data (fs.write e k offset data) := by
  by_cases hcap : offset + data.length ≤ (fs.files k).capacity
  · have hgrow : fs.ensureCapacity e k (offset + data.length) = (fs, .ok) := if_pos hcap
    exact Wrote.of_ensured hne hlt hgrow rfl rfl rfl (if_pos hcap).symm (fun x _ => (if_pos (.inr hcap)).symm)
  obtain ⟨junk, hjunk⟩ := ne_none_iff_exists'.1 (hroom.resolve_left hcap)
  have h0 : roundUp (offset + data.length) ≠ 0 := fun hz => hroom.resolve_left hcap (if_pos hz)
  have hge := roundUp_ge hlt h0
  have hgrow : fs.ensureCapacity e k (offset + data.length) =
      ((fs.newBuf (roundUp (offset + data.length)) (fun x => if x < (fs.files k).size then (fs.bufs (fs.files k).data).bytes x
          else if x < roundUp (offset + data.length) then 0 else junk x)).setFile k
        { fs.files k with data := fs.next, capacity := roundUp (offset + data.length) }, .ok) := by
    unfold ensureCapacity
    dsimp only
    rw [if_neg hcap, hjunk]
  refine Wrote.of_ensured hne hlt hgrow rfl ?_ ?_ ?_ (fun x hx => ?_)
  all_goals simp only [setFile, newBuf, byte, update_self]
  · rw [if_neg hcap]
  · by_cases hxs : x < (fs.files k).size
    · rw [if_pos hxs, if_pos (.inl hxs)]
    · have hxr : x < roundUp (offset + data.length) := by omega
      rw [if_neg hxs, if_pos hxr, if_neg (not_or.2 ⟨hxs, hcap⟩)]

theorem content_overwrite_iff (h : Wrote fs k offset data (fs.write e k offset data)) :
    (fs.write e k offset data).1.content k = overwrite (fs.content k) offset data ↔
      (∀ x, (fs.files k).size ≤ x → x < offset → fs.byte k x = 0) ∨ (fs.files k).capacity < offset + data.length := by
  set r := (fs.write e k offset data).1.content k
  have hlen : r.length = (overwrite (fs.content k) offset data).length := by
    rw [content_length, h.size, overwrite_length, content_length]
  have hgap : ∀ x, r.getD x 0 = (overwrite (fs.content k) offset data).getD x 0 ↔
      ((fs.files k).size ≤ x → x < offset → fs.byte k x = 0 ∨ (fs.files k).capacity < offset + data.length) := by
    intro x
    rw [overwrite_getD, content_getD, content_getD, h.size]
    by_cases hx : x < max (fs.files k).size (offset + data.length)
    · rw [if_pos hx, h.byte x hx]
      by_cases hin : offset ≤ x ∧ x < offset + data.length
      · rw [if_pos hin, if_pos hin]
        exact iff_of_true rfl (fun _ _ => by omega)
      rw [if_neg hin, if_neg hin]
      by_cases hs : x < (fs.files k).size
      · rw [if_pos hs, if_pos (.inl hs)]
        exact iff_of_true rfl (fun _ => by omega)
      by_cases hc : offset + data.length ≤ (fs.files k).capacity
      · rw [if_neg hs, if_pos (.inr hc)]
        refine ⟨fun h0 _ _ => .inl h0, fun h0 => ?_⟩
        exact (h0 (by omega) (by omega)).resolve_right (by omega)
      · rw [if_neg hs, if_neg (by omega)]
        exact iff_of_true rfl (fun _ _ => .inr (by omega))
    · rw [if_neg hx, if_neg (by omega), if_neg (by omega)]
      exact iff_of_true rfl (fun _ _ => by omega)
  constructor
  · intro heq
    by_cases hc : (fs.files k).capacity < offset + data.length
    · exact .inr hc
    · exact .inl (fun x h1 h2 => ((hgap x).1 (by rw [heq]) h1 h2).resolve_right hc)
  · intro hg
    refine ext_getElem hlen (fun x h1 h2 => ?_)
    have hx := (hgap x).2 (fun h3 h4 => hg.imp (fun h0 => h0 x h3 h4) id)
    rwa [getD_eq_getElem _ _ h1, getD_eq_getElem _ _ h2] at hx

/-- When a write does what it should: below 2^32, if there is no gap, or it holds zeros, or the buffer is replaced, or the
write is refused; across 2^32, only if there is no memory even for the wrapped length. -/
def WriteRight (e : Heap) (fs : Fs) (k offset len : Nat) : Prop :=
  if offset + len < 2 ^ 32 then
    (∀ x, (fs.files k).size ≤ x → x < offset → fs.byte k x = 0) ∨ (fs.files k).capacity < offset + len ∨
      138 * 512 < max (fs.files k).size (offset + len) ∨
      fs.vol.sb.freeBlocks < missing fs.vol (fs.vol.inode (fs.files k).inode) 0 (blocksFor (max (fs.files k).size (offset + len)))
  else
    (fs.files k).capacity < (offset + len) % 2 ^ 32 ∧ e.kmallocOf 0 (roundUp ((offset + len) % 2 ^ 32)) = none

theorem WritesFile.of_oom (hne : data ≠ [])
    (hfull : (fs.files k).capacity < (offset + data.length) % 2 ^ 32 ∧ e.kmallocOf 0 (roundUp ((offset + data.length) % 2 ^ 32)) = none) :
    WritesFile e fs k offset data := by
  have hgrow : fs.ensureCapacity e k ((offset + data.length) % 2 ^ 32) = (fs, .oom) := by
    unfold ensureCapacity
    dsimp only
    rw [if_neg (by omega), hfull.2]
  have hw : fs.write e k offset data = (fs, none) := by
    unfold write
    rw [if_neg hne]
    dsimp only
    rw [hgrow]
    exact if_pos (fun h => nomatch h)
  have hs : fs.writeStores e k offset data = [] := by
    unfold writeStores
    dsimp only
    rw [hgrow, if_pos (.inr (fun h => nomatch h))]
  refine ⟨fun h => ?_, fun h => ?_, fun _ => by rw [hw], fun x hx => ?_⟩
  · rw [hw] at h
    cases h
  · rw [hw] at h
    cases h
  · rw [hs] at hx
    cases hx

theorem size_room (hw : Whole (fs.files k)) (hlt : offset + data.length < 2 ^ 32)
    (hroom : offset + data.length ≤ (fs.files k).capacity ∨ e.kmallocOf 0 (roundUp (offset + data.length)) ≠ none) :
    max (fs.files k).size (offset + data.length) + 511 < 2 ^ 32 := by
  obtain ⟨hsize, hdvd, hword⟩ := hw
  rcases hroom with hcap | hmem
  · omega
  · have h0 : roundUp (offset + data.length) ≠ 0 := fun hz => hmem (if_pos hz)
    unfold roundUp at h0
    omega

theorem write_answer_iff (hv : fs.vol.Sound) (hi : fs.vol.Allocated (fs.files k).inode)
    (hs : max (fs.files k).size (offset + data.length) + 511 < 2 ^ 32) (h : Wrote fs k offset data (fs.write e k offset data)) :
    let r := offset + data.length
    ((fs.write e k offset data).2 = some data.length ↔
      max (fs.files k).size r ≤ 138 * 512 ∧ missing fs.vol (fs.vol.inode (fs.files k).inode) 0 (blocksFor (max (fs.files
      k).size r)) ≤ fs.vol.sb.freeBlocks) ∧
    ((fs.write e k offset data).2 = none ↔
      ¬ (max (fs.files k).size r ≤ 138 * 512 ∧ missing fs.vol (fs.vol.inode (fs.files k).inode) 0 (blocksFor (max (fs.files
      k).size r)) ≤ fs.vol.sb.freeBlocks)) := by
  dsimp only
  obtain ⟨bytes, hb⟩ := h.answer
  rw [hb, ← storeData_ok_iff hv hi hs bytes]
  by_cases hok : (fs.vol.storeData (fs.files k).inode bytes (max (fs.files k).size (offset + data.length))).2 = .ok
  · rw [if_pos hok]
    exact ⟨iff_of_true rfl hok, iff_of_false (fun hc => nomatch hc) (not_not.2 hok)⟩
  · rw [if_neg hok]
    exact ⟨iff_of_false (fun hc => nomatch hc) hok, iff_of_true rfl hok⟩

theorem writeStores_lt (hw : Whole (fs.files k)) (hlt : offset + data.length < 2 ^ 32)
    (hroom : offset + data.length ≤ (fs.files k).capacity ∨ e.kmallocOf 0 (roundUp (offset + data.length)) ≠ none)
    (h : Wrote fs k offset data (fs.write e k offset data)) {x : Nat} (hx : x ∈ fs.writeStores e k offset data) :
    x < ((fs.write e k offset data).1.files k).capacity := by
  have hsize := hw.size
  have hpoke : x ∈ (pokes offset data 0).map Prod.fst → x < offset + data.length := fun hm => by
    obtain ⟨j, -, hj, rfl⟩ := mem_pokes.1 hm
    rw [mod_eq_of_lt (by omega)]
    omega
  rw [h.capacity]
  unfold writeStores at hx
  dsimp only at hx
  rw [mod_eq_of_lt hlt] at hx
  split at hx
  · cases hx
  by_cases hcap : offset + data.length ≤ (fs.files k).capacity
  · rw [if_pos hcap] at hx ⊢
    have := hpoke hx
    omega
  · have h0 : roundUp (offset + data.length) ≠ 0 := fun hz => hroom.resolve_left hcap (if_pos hz)
    have hge := roundUp_ge hlt h0
    rw [if_neg hcap] at hx ⊢
    simp only [mem_append, mem_range, mem_range'_1] at hx
    rcases hx with (hx | hx) | hx
    · omega
    · omega
    · have := hpoke hx
      omega

theorem mem_writeStores_wrap (hne : data ≠ []) (hge : 2 ^ 32 ≤ offset + data.length) (hoff : offset < 2 ^ 32)
    (hroom : (offset + data.length) % 2 ^ 32 ≤ (fs.files k).capacity ∨
      e.kmallocOf 0 (roundUp ((offset + data.length) % 2 ^ 32)) ≠ none) : 2 ^ 32 - 1 ∈ fs.writeStores e k offset data := by
  have hok : (fs.ensureCapacity e k ((offset + data.length) % 2 ^ 32)).2 = .ok := by
    unfold ensureCapacity
    dsimp only
    split
    · rfl
    · rename_i hcap
      obtain ⟨junk, hjunk⟩ := ne_none_iff_exists'.1 (hroom.resolve_left hcap)
      rw [hjunk]
  unfold writeStores
  dsimp only
  rw [if_neg (not_or.2 ⟨hne, not_not.2 hok⟩)]
  refine mem_append_right _ (mem_pokes.2 ⟨2 ^ 32 - 1 - offset, zero_le _, by omega, ?_⟩)
  rw [mod_eq_of_lt (by omega)]
  omega

theorem write_capacity_lt (e : Heap) (offset : Nat) (data : List UInt8) (hw : (fs.files k).capacity < 2 ^ 32) :
    ((fs.write e k offset data).1.files k).capacity < 2 ^ 32 := by
  have hgrown : ((fs.ensureCapacity e k ((offset + data.length) % 2 ^ 32)).1.files k).capacity < 2 ^ 32 := by
    unfold ensureCapacity
    dsimp only
    split
    · exact hw
    · split
      · exact hw
      · simp only [setFile, update_self]
        exact roundUp_lt _
  unfold write
  split
  · exact hw
  dsimp only
  split
  · exact hgrown
  · rw [apply_ite Prod.fst, ite_self]
    simp only [setFile, update_self]
    exact hgrown

/-- **When a write does what it should.** -/
theorem write_right_iff (e : Heap) (fs : Fs) (hv : fs.vol.Sound) (k : Nat) (hi : fs.vol.Allocated (fs.files k).inode)
    (hw : Whole (fs.files k)) (offset : Nat) (hoff : offset < 2 ^ 32) (data : List UInt8) (hne : data ≠ []) :
    WritesFile e fs k offset data ↔ WriteRight e fs k offset data.length := by
  unfold WriteRight
  by_cases hlt : offset + data.length < 2 ^ 32
  · rw [if_pos hlt]
    by_cases hroom : offset + data.length ≤ (fs.files k).capacity ∨ e.kmallocOf 0 (roundUp (offset + data.length)) ≠ none
    · have hwr := wrote_of_room hne hlt hroom hw
      have hcontent := content_overwrite_iff hwr
      have hanswer := write_answer_iff hv hi (size_room hw hlt hroom) hwr
      constructor
      · intro h
        by_cases hst : max (fs.files k).size (offset + data.length) ≤ 138 * 512 ∧ missing fs.vol
            (fs.vol.inode (fs.files k).inode) 0 (blocksFor (max (fs.files k).size (offset + data.length))) ≤ fs.vol.sb.freeBlocks
        · exact (hcontent.1 (h.content (hanswer.1.2 hst))).imp id .inl
        · rcases not_and_or.1 hst with hst | hst
          · exact .inr (.inr (.inl (by omega)))
          · exact .inr (.inr (.inr (by omega)))
      · intro hc
        refine ⟨fun hs => ?_, fun _ => hwr.size, fun hx => hanswer.2.2 ?_, fun x hx => writeStores_lt hw hlt hroom hwr hx⟩
        · obtain ⟨h1, h2⟩ := hanswer.1.1 hs
          rcases hc with hgap | hcap | hbig | hmiss
          · exact hcontent.2 (.inl hgap)
          · exact hcontent.2 (.inr hcap)
          · omega
          · omega
        · rcases hx with hbig | hmem | hmiss
          · omega
          · exact absurd hmem.2 (hroom.resolve_left (by omega))
          · omega
    · have hfull : (fs.files k).capacity < offset + data.length ∧ e.kmallocOf 0 (roundUp (offset + data.length)) = none :=
        ⟨by omega, not_not.1 (not_or.1 hroom).2⟩
      refine iff_of_true (WritesFile.of_oom hne ?_) (.inr (.inl hfull.1))
      rw [mod_eq_of_lt hlt]
      exact hfull
  · rw [if_neg hlt]
    constructor
    · intro h
      by_contra hc
      have hroom : (offset + data.length) % 2 ^ 32 ≤ (fs.files k).capacity ∨
          e.kmallocOf 0 (roundUp ((offset + data.length) % 2 ^ 32)) ≠ none := by
        by_contra hn
        exact hc ⟨by omega, not_not.1 (not_or.1 hn).2⟩
      have hin := h.inside _ (mem_writeStores_wrap hne (by omega) hoff hroom)
      have := write_capacity_lt e offset data hw.word
      omega
    · exact WritesFile.of_oom hne

end Right

def oneByte : Fs := ⟨blankVol, fun _ => ⟨fun _ => 0, 0, 1, 0, 512⟩, 1, fun _ => ⟨512, fun x => if x = 0 then 5 else 0⟩, 1⟩

/-- A write behind the end of a file whose buffer holds zeros there. -/
theorem write_right_gap : WritesFile calm oneByte 0 3 [7] ∧ (oneByte.write calm 0 3 [7]).2 = some 1 ∧
    (oneByte.write calm 0 3 [7]).1.content 0 = [5, 0, 0, 7] := by
  have hright : WriteRight calm oneByte 0 3 1 := by
    refine .inl (fun x h1 _ => if_neg ?_)
    have : 1 ≤ x := h1
    omega
  have h := (write_right_iff calm oneByte blankVol_sound 0 ⟨by decide, by decide⟩ ⟨by decide, by decide, by decide⟩ 3 (by decide)
    [7] (by decide)).2 hright
  have hans : (oneByte.write calm 0 3 [7]).2 = some 1 := by decide +kernel
  exact ⟨h, hans, h.content hans⟩

def shortFile : Vol := (run step emptyFs [(calm, .creat [97]), (calm, .write 0 0 [5])]).1.vol

def remounted : Fs := (Fs.init ⟨fun _ => true, fun _ _ => 9⟩ shortFile.disk).get (by decide +kernel)

/-- **A write behind the end of a file that was loaded shows what was in memory.** -/
theorem write_shows_gap : remounted.content 0 = [5] ∧ (remounted.write calm 0 3 [7]).2 = some 1 ∧
    (remounted.write calm 0 3 [7]).1.content 0 = [5, 9, 9, 7] ∧ ¬ WritesFile calm remounted 0 3 [7] := by
  have hold : remounted.content 0 = [5] := by decide +kernel
  have hans : (remounted.write calm 0 3 [7]).2 = some 1 := by decide +kernel
  have hnew : (remounted.write calm 0 3 [7]).1.content 0 = [5, 9, 9, 7] := by decide +kernel
  refine ⟨hold, hans, hnew, fun h => ?_⟩
  have hc := h.content hans
  rw [hold, hnew] at hc
  exact absurd hc (by decide)

end Fs
end Noxis
