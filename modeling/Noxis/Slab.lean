import Noxis.HeapBytes
/-!
# Slab — the slab allocator (`mm/slab.c`)

A cache hands out objects of one size from blocks it takes from the kernel heap.  The free objects are linked through their
own first bytes, in the heap's memory; each block counts its objects on that list.  `Ok` is the invariant that ties the list,
the counters and the live objects together; it is kept by `slabAlloc` (`Ok.alloc`), `slabFree` (`Ok.free`) and `slabReap`
(`Ok.reap`), which walks the list once for each block it gives back.
-/
namespace Noxis

open List Nat UInt8 Function
open Kheap

/-! ## The code -/

/-- `slab_block_t`, at the address `addr`. -/
structure SlabBlock where
  addr : Nat
  base : Nat
  nObjs : Nat
  nFree : Nat

/-- `slab_cache_t`; `blocks` is the list that starts at the field of this name. -/
structure SlabCache where
  objSize : Nat
  freeHead : Nat
  blocks : List SlabBlock
  nAlloc : Nat
  nFree : Nat
  nAllocPeak : Nat
  growBy : Nat

structure Slab where
  heap : Kheap
  cache : SlabCache

namespace Slab

def u32 (x : Nat) : Nat := x % 2 ^ 32
def inc32 (x : Nat) : Nat := u32 (x + 1)
def dec32 (x : Nat) : Nat := if x = 0 then 2 ^ 32 - 1 else x - 1

def slabCreate (h : Kheap) (objSize growBy : Nat) : Kheap × Option SlabCache :=
  let objSize := if objSize < 8 then 8 else objSize
  let r := h.kmalloc 48
  if r.2 = 0 then (r.1, none) else (r.1, some ⟨objSize, 0, [], 0, 0, 0, if growBy = 0 then 8 else growBy⟩)

def inBlock (objSize : Nat) (b : SlabBlock) (p : Nat) : Bool := decide (b.base ≤ p ∧ p < b.base + u32 (b.nObjs * objSize))

/-- The blocks with `f` done to the one `_block_of` finds. -/
def atBlockOf (objSize p : Nat) (f : SlabBlock → SlabBlock) : List SlabBlock → List SlabBlock
  | [] => []
  | b :: bs => if inBlock objSize b p then f b :: bs else b :: atBlockOf objSize p f bs

/-- The loop of `_slab_grow` after `n` rounds: the objects from `mem` on enter the free list. -/
def growLoop (s : Slab) (mem : Nat) : Nat → Slab
  | 0 => s
  | n + 1 =>
    let s := growLoop s mem n
    let obj := mem + u32 (n * s.cache.objSize)
    ⟨s.heap.put64 obj s.cache.freeHead, { s.cache with freeHead := obj, nFree := inc32 s.cache.nFree }⟩

def slabGrow (s : Slab) : Slab × Bool :=
  let r := s.heap.kmalloc 24
  if r.2 = 0 then ({ s with heap := r.1 }, false)
  else
    let q := r.1.kmalloc (u32 (s.cache.objSize * s.cache.growBy))
    if q.2 = 0 then ({ s with heap := q.1.kfree r.2 }, false)
    else
      let b : SlabBlock := ⟨r.2, q.2, s.cache.growBy, s.cache.growBy⟩
      (growLoop ⟨q.1, { s.cache with blocks := b :: s.cache.blocks }⟩ q.2 s.cache.growBy, true)

/-- `slab_alloc` with a free object, the head of the list. -/
def takeHead (s : Slab) : Slab × Nat :=
  let c := s.cache
  let obj := c.freeHead
  let nAlloc := inc32 c.nAlloc
  (⟨s.heap.writeBytes obj (fun _ => 0) c.objSize,
    { c with freeHead := s.heap.get64 obj, nFree := dec32 c.nFree, nAlloc := nAlloc
             nAllocPeak := if c.nAllocPeak < nAlloc then nAlloc else c.nAllocPeak
             blocks := atBlockOf c.objSize obj (fun b => if b.nFree = 0 then b else { b with nFree := dec32 b.nFree }) c.blocks }⟩,
    obj)

def slabAlloc (s : Slab) : Slab × Nat :=
  if s.cache.freeHead = 0 then
    let r := s.slabGrow
    if r.2 then r.1.takeHead else (r.1, 0)
  else s.takeHead

def slabFree (s : Slab) (obj : Nat) : Slab :=
  if obj = 0 then s
  else
    let c := s.cache
    let h := s.heap.writeBytes obj (fun i => UInt8.ofNat (0xDEADC0DE / 256 ^ i)) 4
    ⟨h.put64 obj c.freeHead,
      { c with freeHead := obj, nFree := inc32 c.nFree, nAlloc := dec32 c.nAlloc
               blocks := atBlockOf c.objSize obj (fun b => { b with nFree := inc32 b.nFree }) c.blocks }⟩

/-- `*slot`, where `slot` is the address of `free_head` or of an object. -/
def load (s : Slab) : Option Nat → Nat
  | none => s.cache.freeHead
  | some o => s.heap.get64 o

def store (s : Slab) (slot : Option Nat) (v : Nat) : Slab :=
  match slot with
  | none => { s with cache := { s.cache with freeHead := v } }
  | some o => { s with heap := s.heap.put64 o v }

/-- The inner loop of `slab_reap`: the objects from `lo` to `hi` leave the free list.  None when the list does not end. -/
def unlinkObjs (lo hi : Nat) : Nat → Slab → Option Nat → Option Slab
  | 0, _, _ => none
  | n + 1, s, slot =>
    let o := s.load slot
    if o = 0 then some s
    else if lo ≤ o ∧ o < hi then
      let s := s.store slot (s.heap.get64 o)
      unlinkObjs lo hi n { s with cache := { s.cache with nFree := dec32 s.cache.nFree } } slot
    else unlinkObjs lo hi n s (some o)

/-- A block that is entirely free is given back: the rest of the list is `bs`, the blocks before it `pre`. -/
def release (s : Slab) (pre : List SlabBlock) (b : SlabBlock) (bs : List SlabBlock) : Option Slab :=
  match unlinkObjs b.base (b.base + u32 (b.nObjs * s.cache.objSize)) (heapSize + 1) s none with
  | none => none
  | some s => some ⟨(s.heap.kfree b.base).kfree b.addr, { s.cache with blocks := pre ++ bs }⟩

/-- The outer loop of `slab_reap`, at the block after `pre`. -/
def reapFrom : List SlabBlock → List SlabBlock → Slab → Nat → Option (Slab × Nat)
  | _, [], s, reclaimed => some (s, reclaimed)
  | pre, b :: bs, s, reclaimed =>
    if b.nFree ≠ b.nObjs then reapFrom (pre ++ [b]) bs s reclaimed
    else
      match s.release pre b bs with
      | none => none
      | some s' => reapFrom pre bs s' (u32 (reclaimed + (u32 (s.cache.objSize * b.nObjs) + 24)))

def slabReap (s : Slab) : Option (Slab × Nat) := reapFrom [] s.cache.blocks s 0

/-! ## The objects of a cache -/

def objects (objSize : Nat) (b : SlabBlock) : List Nat := (List.range b.nObjs).map (fun i => b.base + i * objSize)

def objs (c : SlabCache) : List Nat := c.blocks.flatMap (objects c.objSize)

def allocs (c : SlabCache) : List (Nat × Nat) := c.blocks.flatMap (fun b => [(b.base, c.objSize * c.growBy), (b.addr, 24)])

def nextFree (h : Kheap) (o : Nat) : Option Nat := ptr (h.get64 o)

/-- The sizes fit and every block is an allocation of the heap; `others` are the allocations of other owners. -/
structure Laid (h : Kheap) (c : SlabCache) (others : List (Nat × Nat)) : Prop where
  size : 8 ≤ c.objSize
  grow : 0 < c.growBy
  fits : c.objSize * c.growBy < 2 ^ 32
  count : ∀ b ∈ c.blocks, b.nObjs = c.growBy
  owned : h.Owned (allocs c ++ others)

section Geometry

variable {h : Kheap} {c : SlabCache} {others : List (Nat × Nat)} {o : Nat} {b b' : SlabBlock}

theorem mem_objects {objSize : Nat} : o ∈ objects objSize b ↔ ∃ i < b.nObjs, o = b.base + i * objSize := by
  unfold objects
  rw [mem_map]
  constructor
  · rintro ⟨i, hi, rfl⟩; exact ⟨i, mem_range.1 hi, rfl⟩
  · rintro ⟨i, hi, rfl⟩; exact ⟨i, mem_range.2 hi, rfl⟩

theorem base_mem (hb : b ∈ c.blocks) : (b.base, c.objSize * c.growBy) ∈ allocs c ++ others :=
  mem_append_left _ (mem_flatMap.2 ⟨b, hb, mem_cons_self⟩)

section
variable (hl : Laid h c others)
include hl

theorem Laid.inside (hb : b ∈ c.blocks) (ho : o ∈ objects c.objSize b) :
    b.base ≤ o ∧ o + c.objSize ≤ b.base + c.objSize * c.growBy := by
  obtain ⟨i, hi, rfl⟩ := mem_objects.1 ho
  rw [hl.count b hb] at hi
  have : (i + 1) * c.objSize ≤ c.growBy * c.objSize := mul_le_mul_right _ hi
  have hcomm := mul_comm c.growBy c.objSize
  rw [succ_mul] at this
  omega

theorem Laid.bound (ho : o ∈ objs c) : heapBase < o ∧ o + c.objSize ≤ heapEnd := by
  obtain ⟨b, hb, hob⟩ := mem_flatMap.1 ho
  have h1 := hl.inside hb hob
  have h2 := hl.owned.bounds (base_mem hb)
  omega

section

variable (hb : b ∈ c.blocks)
include hb

theorem Laid.range : u32 (b.nObjs * c.objSize) = c.objSize * c.growBy := by
  unfold u32
  rw [hl.count b hb, mul_comm, mod_eq_of_lt hl.fits]

theorem Laid.inBlock_iff (p : Nat) : inBlock c.objSize b p = true ↔ b.base ≤ p ∧ p < b.base + c.objSize * c.growBy := by
  unfold inBlock
  rw [hl.range hb, decide_eq_true_eq]

theorem Laid.blocks_apart (hb' : b' ∈ c.blocks) (hne : b.base ≠ b'.base) : b.base + c.objSize * c.growBy ≤ b'.base ∨
    b'.base + c.objSize * c.growBy ≤ b.base :=
  hl.owned.apart (base_mem hb) (base_mem hb') hne

theorem Laid.inBlock_objects (hb' : b' ∈ c.blocks) (ho : o ∈ objects c.objSize b') : inBlock c.objSize b o = true ↔
    b.base = b'.base := by
  rw [hl.inBlock_iff hb]
  have h1 := hl.inside hb' ho
  have h2 := hl.size
  constructor
  · intro h3
    by_contra hne
    have := hl.blocks_apart hb hb' hne
    omega
  · intro h3
    omega

theorem Laid.inBlock_iff_mem (ho : o ∈ objs c) : inBlock c.objSize b o = true ↔ o ∈ objects c.objSize b := by
  obtain ⟨b', hb', hob⟩ := mem_flatMap.1 ho
  refine ⟨fun hin => ?_, fun hin => (hl.inBlock_objects hb hb hin).2 rfl⟩
  have hbase := (hl.inBlock_objects hb hb' hob).1 hin
  have hobjs : objects c.objSize b = objects c.objSize b' := by
    unfold objects
    rw [hbase, hl.count b hb, hl.count b' hb']
  rw [hobjs]
  exact hob

end

theorem Laid.apart {o' : Nat} (ho : o ∈ objs c) (ho' : o' ∈ objs c) (hne : o ≠ o') :
    o + c.objSize ≤ o' ∨ o' + c.objSize ≤ o := by
  obtain ⟨b, hb, hob⟩ := mem_flatMap.1 ho
  obtain ⟨b', hb', hob'⟩ := mem_flatMap.1 ho'
  by_cases hbase : b.base = b'.base
  · obtain ⟨i, -, rfl⟩ := mem_objects.1 hob
    obtain ⟨j, -, rfl⟩ := mem_objects.1 hob'
    rw [hbase] at hne ⊢
    rcases lt_trichotomy i j with hij | hij | hij
    · have := mul_le_mul_right c.objSize (succ_le_of_lt hij)
      rw [succ_mul] at this
      omega
    · exact absurd (by rw [hij]) hne
    · have := mul_le_mul_right c.objSize (succ_le_of_lt hij)
      rw [succ_mul] at this
      omega
  · have h1 := hl.inside hb hob
    have h2 := hl.inside hb' hob'
    have := hl.blocks_apart hb hb' hbase
    omega

theorem Laid.bases : c.blocks.Pairwise (fun b b' => b.base ≠ b'.base) := by
  have hnd := hl.owned.nodup
  rw [map_append, allocs, map_flatMap] at hnd
  have hnd' := (nodup_flatMap.1 (nodup_append.1 hnd).1).2
  refine hnd'.imp (fun {b b'} hd heq => ?_)
  exact hd (a := b.base) (by simp) (by simp [heq])

theorem Laid.objects_nodup (b : SlabBlock) : (objects c.objSize b).Nodup := by
  refine nodup_range.map (fun i j hij => ?_)
  have hs := hl.size
  exact eq_of_mul_eq_mul_right (by omega) (add_left_cancel hij)

theorem Laid.objs_nodup : (objs c).Nodup := by
  refine nodup_flatMap.2 ⟨fun b _ => hl.objects_nodup b, hl.bases.imp_of_mem (fun {b b'} hb hb' hne => ?_)⟩
  · intro o ho ho'
    have h1 := hl.inside hb ho
    have h2 := hl.inside hb' ho'
    have := hl.blocks_apart hb hb' hne
    have hs := hl.size
    omega

theorem Laid.objs_length : (objs c).length ≤ heapSize :=
  length_le_heap hl.objs_nodup (fun o ho => by have := hl.bound ho; have := hl.size; omega)

end

end Geometry

/-! ## The invariant -/

open Linked

/-- The free list is `F`, the live objects are `live`: together they are the objects of the blocks, each once, and the counters
count them. -/
structure Ok (s : Slab) (others : List (Nat × Nat)) (live F : List Nat) : Prop where
  laid : Laid s.heap s.cache others
  chain : Chain (nextFree s.heap) (ptr s.cache.freeHead) F
  perm : (F ++ live).Perm (objs s.cache)
  nFree : s.cache.nFree = F.length
  nAlloc : s.cache.nAlloc = live.length
  blocks : ∀ b ∈ s.cache.blocks, b.nFree = F.countP (inBlock s.cache.objSize b)

variable {n o objSize : Nat}

theorem inc32_eq (h : n < heapSize) : inc32 n = n + 1 := by
  have : heapSize < 2 ^ 32 := by decide
  unfold inc32 u32
  rw [mod_eq_of_lt (by omega)]

theorem dec32_succ (n : Nat) : dec32 (n + 1) = n := by
  unfold dec32
  rw [if_neg (by omega), Nat.add_sub_cancel]

variable {h h' : Kheap}

theorem nextFree_congr (hb : ∀ x, o ≤ x → x < o + 8 → h'.bytes x = h.bytes x) :
    nextFree h' o = nextFree h o := congrArg ptr (get64_congr hb)

variable {F live : List Nat}

theorem chain_congr {p : Option Nat} (hc : Chain (nextFree h) p F)
    (hb : ∀ o ∈ F, ∀ x, o ≤ x → x < o + 8 → h'.bytes x = h.bytes x) : Chain (nextFree h') p F :=
  hc.congr (fun o ho => nextFree_congr (hb o ho))

variable {s : Slab} {others : List (Nat × Nat)}

theorem Ok.mem_free (h : s.Ok others live F) (ho : o ∈ F) : o ∈ objs s.cache := h.perm.subset (mem_append_left _ ho)

theorem Ok.mem_live (h : s.Ok others live F) (ho : o ∈ live) : o ∈ objs s.cache := h.perm.subset (mem_append_right _ ho)

theorem Ok.nodup (h : s.Ok others live F) : (F ++ live).Nodup :=
  h.perm.nodup_iff.2 h.laid.objs_nodup

theorem Ok.length (h : s.Ok others live F) : F.length + live.length ≤ heapSize := by
  have := h.perm.length_eq
  rw [length_append] at this
  exact this ▸ h.laid.objs_length

theorem ptr_some {p : Nat} (h : ptr o = some p) : o = p ∧ p ≠ 0 := by
  unfold ptr at h
  split at h
  · cases h
  · next hz => exact ⟨Option.some.inj h, Option.some.inj h ▸ hz⟩

theorem ptr_none (h : ptr o = none) : o = 0 := by
  unfold ptr at h
  split at h
  · assumption
  · cases h

/-! ## Counting in the block of an object -/

theorem atBlockOf_eq_map {objSize p : Nat} (f : SlabBlock → SlabBlock) : ∀ {bs : List SlabBlock},
    bs.Pairwise (fun b b' => ¬ (inBlock objSize b p = true ∧ inBlock objSize b' p = true)) →
    atBlockOf objSize p f bs = bs.map (fun b => if inBlock objSize b p then f b else b)
  | [], _ => rfl
  | b :: bs, hp => by
    obtain ⟨h1, h2⟩ := pairwise_cons.1 hp
    rw [atBlockOf, map_cons]
    by_cases hb : inBlock objSize b p = true
    · rw [if_pos hb, if_pos hb]
      congr 1
      exact (map_id bs).symm.trans (map_congr_left (fun b' hb' => (if_neg (fun hx => h1 b' hb' ⟨hb, hx⟩)).symm))
    · rw [if_neg hb, if_neg hb, atBlockOf_eq_map f h2]

variable {c : SlabCache}

theorem Laid.atBlockOf (hl : Laid h c others) (f : SlabBlock → SlabBlock) :
    atBlockOf c.objSize o f c.blocks = c.blocks.map (fun b => if inBlock c.objSize b o then f b else b) := by
  refine atBlockOf_eq_map f (hl.bases.imp_of_mem (fun {b b'} hb hb' hne hx => ?_))
  rw [hl.inBlock_iff hb, hl.inBlock_iff hb'] at hx
  have := hl.blocks_apart hb hb' hne
  omega

def SameBlock (b' b : SlabBlock) : Prop := b'.addr = b.addr ∧ b'.base = b.base ∧ b'.nObjs = b.nObjs

theorem sameBlock_ite {f : SlabBlock → SlabBlock} (hf : ∀ b, SameBlock (f b) b) (P : Prop) [Decidable P] (b : SlabBlock) :
    SameBlock (if P then f b else b) b := by
  split
  · exact hf b
  · exact ⟨rfl, rfl, rfl⟩

theorem Laid.recount (hl : Laid h c others) (c' : SlabCache)
    (hs : c'.objSize = c.objSize) (hg : c'.growBy = c.growBy) {g : SlabBlock → SlabBlock} (hb : c'.blocks = c.blocks.map g)
    (hk : ∀ b, SameBlock (g b) b) (ho : h'.Owned (allocs c ++ others)) : Laid h' c' others ∧ objs c' = objs c := by
  have hobjs : objs c' = objs c := by
    unfold objs
    rw [hb, hs, flatMap_map]
    refine flatMap_congr (fun b _ => ?_)
    unfold objects
    rw [(hk b).2.1, (hk b).2.2]
  have hallocs : allocs c' = allocs c := by
    unfold allocs
    rw [hb, hs, hg, flatMap_map]
    refine flatMap_congr (fun b _ => ?_)
    rw [(hk b).1, (hk b).2.1]
  refine ⟨⟨hs ▸ hl.size, hg ▸ hl.grow, by rw [hs, hg]; exact hl.fits, fun b hb' => ?_, by rw [hallocs]; exact ho⟩, hobjs⟩
  rw [hb] at hb'
  obtain ⟨b0, hb0, rfl⟩ := mem_map.1 hb'
  rw [(hk b0).2.2, hg]
  exact hl.count b0 hb0

theorem SameBlock.inBlock {b b' : SlabBlock} (h : SameBlock b' b) : inBlock objSize b' = inBlock objSize b := by
  funext p
  unfold Slab.inBlock
  rw [h.2.1, h.2.2]

theorem Laid.home (hl : Laid h c others) (ho : o ∈ objs c) :
    ∃ base, (base, c.objSize * c.growBy) ∈ allocs c ++ others ∧ base ≤ o ∧ o + c.objSize ≤ base + c.objSize * c.growBy := by
  obtain ⟨b, hb, hob⟩ := mem_flatMap.1 ho
  exact ⟨b.base, base_mem hb, hl.inside hb hob⟩

/-! ## `slab_alloc` with a free object -/

/-- **The head of the free list is handed out**, zeroed; no byte outside it changes. -/
theorem Ok.takeHead (h : s.Ok others live (o :: F)) : s.takeHead.2 = o ∧ s.takeHead.1.Ok others (o :: live) F ∧
    ∀ x, s.takeHead.1.heap.bytes x = if o ≤ x ∧ x < o + s.cache.objSize then 0 else s.heap.bytes x := by
  obtain ⟨hhead, hchain⟩ := h.chain
  obtain ⟨hhead, ho0⟩ := ptr_some hhead
  have hoo := h.mem_free mem_cons_self
  obtain ⟨base, hbase, hlo, hhi⟩ := h.laid.home hoo
  have hsz := h.laid.size
  have hlen := h.length
  rw [length_cons] at hlen
  have hnd := h.nodup
  rw [cons_append] at hnd
  unfold Slab.takeHead
  dsimp only
  rw [hhead]
  have hbytes : ∀ x, (s.heap.writeBytes o (fun _ => 0) s.cache.objSize).bytes x =
      if o ≤ x ∧ x < o + s.cache.objSize then 0 else s.heap.bytes x := bytes_writeBytes _ _ _ _
  have howned := h.laid.owned.writeBytes hbase hlo (fun _ => 0) hhi
  generalize s.heap.writeBytes o (fun _ => 0) s.cache.objSize = h' at *
  rw [h.laid.atBlockOf]
  have hkeep : ∀ b : SlabBlock, SameBlock (if b.nFree = 0 then b else { b with nFree := dec32 b.nFree }) b := fun b => by
    split <;> exact ⟨rfl, rfl, rfl⟩
  refine ⟨rfl, ?_, hbytes⟩
  obtain ⟨hl', hobjs⟩ := h.laid.recount ({ s.cache with
      freeHead := s.heap.get64 o, nFree := dec32 s.cache.nFree, nAlloc := inc32 s.cache.nAlloc
      nAllocPeak := if s.cache.nAllocPeak < inc32 s.cache.nAlloc then inc32 s.cache.nAlloc else s.cache.nAllocPeak
      blocks := s.cache.blocks.map (fun b => if inBlock s.cache.objSize b o then
        (if b.nFree = 0 then b else { b with nFree := dec32 b.nFree }) else b) }) rfl rfl rfl (fun b => sameBlock_ite hkeep _ b) howned
  refine ⟨hl', ?_, ?_, ?_, ?_, fun b hb => ?_⟩
  · -- the objects that stay on the list do not meet `o`
    refine chain_congr hchain (fun o' ho' x h1 h2 => ?_)
    have hne : o ≠ o' := fun hx => (nodup_cons.1 hnd).1 (mem_append_left _ (hx ▸ ho'))
    have := h.laid.apart hoo (h.mem_free (mem_cons_of_mem _ ho')) hne
    rw [hbytes, if_neg (by omega)]
  · rw [hobjs]
    exact perm_middle.trans h.perm
  · dsimp only
    rw [h.nFree, length_cons, dec32_succ]
  · dsimp only
    rw [h.nAlloc, length_cons, inc32_eq (by omega)]
  · obtain ⟨b0, hb0, rfl⟩ := mem_map.1 hb
    dsimp only
    rw [(sameBlock_ite hkeep _ b0).inBlock]
    have hcount := h.blocks b0 hb0
    rw [countP_cons] at hcount
    have hle := countP_le_length (p := inBlock s.cache.objSize b0) (l := F)
    by_cases hin : inBlock s.cache.objSize b0 o = true
    · rw [if_pos hin] at hcount
      rw [if_pos hin, if_neg (by omega)]
      dsimp only
      rw [hcount, dec32_succ]
    · rw [if_neg hin] at hcount
      rw [if_neg hin, hcount, add_zero]

/-! ## `slab_free` -/

theorem Ok.head_lt (h : s.Ok others live F) : s.cache.freeHead < 2 ^ 64 := by
  have hend := heapEnd_lt
  cases F with
  | nil => rw [ptr_none h.chain]; decide
  | cons o F =>
    rw [(ptr_some h.chain.1).1]
    have := h.laid.bound (h.mem_free mem_cons_self)
    omega

/-- **A live object returns to the list**; no byte outside its first eight changes. -/
theorem Ok.free (h : s.Ok others live F) (ho : o ∈ live) : (s.slabFree o).Ok others (live.erase o) (o :: F) ∧
    ∀ x, ¬ (o ≤ x ∧ x < o + 8) → (s.slabFree o).heap.bytes x = s.heap.bytes x := by
  have hoo := h.mem_live ho
  obtain ⟨base, hbase, hlo, hhi⟩ := h.laid.home hoo
  have hsz := h.laid.size
  have hlen := h.length
  have hbound := h.laid.bound hoo
  have hpos : 0 < live.length := length_pos_of_mem ho
  have hhead := h.head_lt
  have hnd := h.nodup
  unfold Slab.slabFree
  rw [if_neg (by omega)]
  dsimp only
  -- the poison is overwritten by the link
  have hbytes : ∀ x, ¬ (o ≤ x ∧ x < o + 8) → ((s.heap.writeBytes o (fun i => ofNat (0xDEADC0DE / 256 ^ i)) 4).put64 o
      s.cache.freeHead).bytes x = s.heap.bytes x := fun x hx => by
    rw [bytes_put64_of_ne _ hx, bytes_writeBytes, if_neg (by omega)]
  have hlink : ((s.heap.writeBytes o (fun i => ofNat (0xDEADC0DE / 256 ^ i)) 4).put64 o s.cache.freeHead).get64 o =
      s.cache.freeHead := get64_put64 _ _ hhead
  have howned : ((s.heap.writeBytes o (fun i => ofNat (0xDEADC0DE / 256 ^ i)) 4).put64 o s.cache.freeHead).Owned
      (allocs s.cache ++ others) :=
    (h.laid.owned.writeBytes hbase hlo _ (by omega)).put64 hbase hlo (by omega) _
  generalize (s.heap.writeBytes o (fun i => ofNat (0xDEADC0DE / 256 ^ i)) 4).put64 o s.cache.freeHead = h' at *
  rw [h.laid.atBlockOf]
  have hkeep : ∀ b : SlabBlock, SameBlock { b with nFree := inc32 b.nFree } b := fun b => ⟨rfl, rfl, rfl⟩
  refine ⟨?_, hbytes⟩
  obtain ⟨hl', hobjs⟩ := h.laid.recount ({ s.cache with
      freeHead := o, nFree := inc32 s.cache.nFree, nAlloc := dec32 s.cache.nAlloc
      blocks := s.cache.blocks.map (fun b => if inBlock s.cache.objSize b o then { b with nFree := inc32 b.nFree } else b) })
    rfl rfl rfl (fun b => sameBlock_ite hkeep _ b) howned
  refine ⟨hl', ⟨?_, ?_⟩, ?_, ?_, ?_, fun b hb => ?_⟩
  · exact if_neg (show o ≠ 0 by omega)
  · unfold nextFree
    rw [hlink]
    refine chain_congr h.chain (fun o' ho' x h1 h2 => hbytes x ?_)
    have hne : o' ≠ o := fun hx => (nodup_append.1 hnd).2.2 o' ho' o ho hx
    have := h.laid.apart hoo (h.mem_free ho') hne.symm
    omega
  · rw [hobjs]
    exact perm_middle.symm.trans (((perm_cons_erase ho).symm.append_left F).trans h.perm)
  · dsimp only
    rw [h.nFree, length_cons, inc32_eq (by omega)]
  · dsimp only
    rw [h.nAlloc, length_erase_of_mem ho]
    obtain ⟨n, hn⟩ : ∃ n, live.length = n + 1 := ⟨live.length - 1, by omega⟩
    rw [hn, dec32_succ, Nat.add_sub_cancel]
  · obtain ⟨b0, hb0, rfl⟩ := mem_map.1 hb
    dsimp only
    rw [(sameBlock_ite hkeep _ b0).inBlock, countP_cons]
    have hcount := h.blocks b0 hb0
    have hle := countP_le_length (p := inBlock s.cache.objSize b0) (l := F)
    by_cases hin : inBlock s.cache.objSize b0 o = true
    · rw [if_pos hin, if_pos hin]
      dsimp only
      rw [hcount, inc32_eq (by omega)]
    · rw [if_neg hin, if_neg hin, hcount, add_zero]

/-! ## `_slab_grow` -/

/-- The objects of a block in the order of the free list, after `n` rounds of the loop. -/
def grown (objSize mem n : Nat) : List Nat := ((List.range n).map (fun i => mem + i * objSize)).reverse

theorem grown_succ (objSize mem n : Nat) : grown objSize mem (n + 1) = (mem + n * objSize) :: grown objSize mem n := by
  unfold grown
  rw [range_succ, map_append, reverse_append]
  rfl

theorem mem_grown {mem : Nat} : o ∈ grown objSize mem n ↔ ∃ i < n, o = mem + i * objSize := by
  unfold grown
  rw [mem_reverse, mem_map]
  constructor
  · rintro ⟨i, hi, rfl⟩; exact ⟨i, mem_range.1 hi, rfl⟩
  · rintro ⟨i, hi, rfl⟩; exact ⟨i, mem_range.2 hi, rfl⟩

/-- **The loop of `_slab_grow`** on an empty list: it links the new objects, and writes in the new block only. -/
theorem growLoop_spec {s : Slab} {l : List (Nat × Nat)} {mem m : Nat} (ho : s.heap.Owned l)
    (hm : (mem, s.cache.objSize * m) ∈ l) (hsz : 8 ≤ s.cache.objSize) (hfit : s.cache.objSize * m < 2 ^ 32)
    (hfree : s.cache.freeHead = 0) (hn0 : s.cache.nFree = 0) (hmax : m ≤ heapSize) : ∀ n, n ≤ m → let r := growLoop s mem n
    r.heap.Owned l ∧ Chain (nextFree r.heap) (ptr r.cache.freeHead) (grown s.cache.objSize mem n) ∧
    r.cache = { s.cache with freeHead := r.cache.freeHead, nFree := n } ∧
    ∀ x, ¬ (mem ≤ x ∧ x < mem + s.cache.objSize * m) → r.heap.bytes x = s.heap.bytes x
  | 0, _ => by
    refine ⟨ho, ?_, ?_, fun _ _ => rfl⟩
    · rw [growLoop, hfree]; rfl
    · rw [growLoop, ← hn0]
  | n + 1, hle => by
    obtain ⟨h1, h2, h3, h4⟩ := growLoop_spec ho hm hsz hfit hfree hn0 hmax n (by omega)
    have hmul : n * s.cache.objSize + s.cache.objSize ≤ s.cache.objSize * m := by
      have := mul_le_mul_left s.cache.objSize hle
      rw [mul_succ, mul_comm] at this
      exact this
    have hu : u32 (n * s.cache.objSize) = n * s.cache.objSize := mod_eq_of_lt (by omega)
    have hbound := ho.bounds hm
    have hend := heapEnd_lt
    have hlt : (growLoop s mem n).cache.freeHead < 2 ^ 64 := by
      cases n with
      | zero => rw [growLoop, hfree]; decide
      | succ k =>
        rw [grown_succ] at h2
        rw [(ptr_some h2.1).1]
        have : (k + 1) * s.cache.objSize = k * s.cache.objSize + s.cache.objSize := succ_mul ..
        omega
    rw [growLoop, grown_succ]
    dsimp only
    rw [show (growLoop s mem n).cache.objSize = s.cache.objSize by rw [h3], hu]
    generalize growLoop s mem n = t at *
    have hbytes : ∀ x, ¬ (mem + n * s.cache.objSize ≤ x ∧ x < mem + n * s.cache.objSize + 8) →
        (t.heap.put64 (mem + n * s.cache.objSize) t.cache.freeHead).bytes x = t.heap.bytes x := fun x hx => by
      exact bytes_put64_of_ne _ hx
    refine ⟨h1.put64 hm (by omega) (by omega) _, ⟨if_neg (by omega), ?_⟩, ?_, fun x hx => ?_⟩
    · unfold nextFree
      rw [get64_put64 _ _ hlt]
      refine chain_congr h2 (fun o ho' x hx1 hx2 => hbytes x ?_)
      obtain ⟨i, hi, rfl⟩ := mem_grown.1 ho'
      have := mul_le_mul_right s.cache.objSize hi
      rw [succ_mul] at this
      omega
    · rw [h3]
      dsimp only
      rw [inc32_eq (by omega)]
    · rw [hbytes x (by omega), h4 x hx]

theorem Ok.heap (h : s.Ok others live F) (ho : h'.Owned (allocs s.cache ++ others))
    (hb : Kept (allocs s.cache ++ others) s.heap h') : (Slab.mk h' s.cache).Ok others live F := by
  have hsz := h.laid.size
  refine ⟨{ h.laid with owned := ho }, chain_congr h.chain (fun o hoF x h1 h2 => ?_), h.perm, h.nFree, h.nAlloc, h.blocks⟩
  obtain ⟨base, hbase, hlo, hhi⟩ := h.laid.home (h.mem_free hoF)
  exact hb base _ hbase x (by omega) (by omega)

/-- **`_slab_grow`** on an empty list fails or brings new objects; the bytes of every allocation there was are kept. -/
theorem Ok.grow (h : s.Ok others live []) : ((s.slabGrow.2 = false ∧ s.slabGrow.1.Ok others live []) ∨
      (s.slabGrow.2 = true ∧ ∃ o F, s.slabGrow.1.Ok others live (o :: F))) ∧
    s.slabGrow.1.cache.objSize = s.cache.objSize ∧ Kept (allocs s.cache ++ others) s.heap s.slabGrow.1.heap := by
  have hu : u32 (s.cache.objSize * s.cache.growBy) = s.cache.objSize * s.cache.growBy := mod_eq_of_lt h.laid.fits
  have hfits := h.laid.fits
  obtain ⟨hr, hrb⟩ := h.laid.owned.kmalloc (show 24 ≤ 2 ^ 64 - 16 by decide)
  unfold slabGrow
  dsimp only
  rw [hu]
  generalize s.heap.kmalloc 24 = r at *
  rcases hr with rfl | ⟨hz, hr⟩
  · rw [if_pos rfl]
    exact ⟨.inl ⟨rfl, h⟩, rfl, hrb⟩
  rw [if_neg hz]
  obtain ⟨hq, hqb⟩ := hr.kmalloc (show s.cache.objSize * s.cache.growBy ≤ 2 ^ 64 - 16 by omega)
  generalize r.1.kmalloc (s.cache.objSize * s.cache.growBy) = q at *
  have hkept : Kept (allocs s.cache ++ others) s.heap q.1 := hrb.trans (hqb.mono (subset_cons_self _ _))
  rcases hq with rfl | ⟨hqz, hq⟩
  · rw [if_pos rfl]
    obtain ⟨hf, hfb⟩ := hr.kfree_head
    exact ⟨.inl ⟨rfl, h.heap hf (hrb.trans hfb)⟩, rfl, hrb.trans hfb⟩
  rw [if_neg hqz]
  -- the cache with the new block, before the loop
  have hl1 : Laid q.1 { s.cache with blocks := ⟨r.2, q.2, s.cache.growBy, s.cache.growBy⟩ :: s.cache.blocks } others :=
    ⟨h.laid.size, h.laid.grow, h.laid.fits, forall_mem_cons.2 ⟨rfl, h.laid.count⟩, hq⟩
  have hmax : s.cache.growBy ≤ heapSize := by
    have hlen := hl1.objs_length
    unfold objs objects at hlen
    rw [flatMap_cons, length_append, length_map, length_range] at hlen
    dsimp only at hlen
    omega
  have hspec := growLoop_spec (s := ⟨q.1, { s.cache with blocks := ⟨r.2, q.2, s.cache.growBy, s.cache.growBy⟩ :: s.cache.blocks }⟩)
    hq mem_cons_self h.laid.size h.laid.fits (ptr_none h.chain) h.nFree hmax s.cache.growBy (le_refl _)
  dsimp only at hspec ⊢
  generalize growLoop ⟨q.1, { s.cache with blocks := ⟨r.2, q.2, s.cache.growBy, s.cache.growBy⟩ :: s.cache.blocks }⟩ q.2
    s.cache.growBy = t at *
  obtain ⟨h1, h2, h3, h4⟩ := hspec
  obtain ⟨hl2, hobjs⟩ := hl1.recount t.cache (g := id) (by rw [h3]) (by rw [h3]) (by rw [h3, map_id])
    (fun b => ⟨rfl, rfl, rfl⟩) h1
  have hob : objects s.cache.objSize ⟨r.2, q.2, s.cache.growBy, s.cache.growBy⟩ =
      (grown s.cache.objSize q.2 s.cache.growBy).reverse := (reverse_reverse _).symm
  have hok : t.Ok others live (grown s.cache.objSize q.2 s.cache.growBy) := by
    refine ⟨hl2, h2, ?_, ?_, ?_, fun b hb => ?_⟩
    · rw [hobjs]
      unfold objs
      rw [flatMap_cons]
      dsimp only
      rw [hob]
      exact (reverse_perm _).symm.append h.perm
    · rw [h3]
      unfold grown
      rw [length_reverse, length_map, length_range]
    · rw [h3]; exact h.nAlloc
    · rw [show t.cache.blocks = ⟨r.2, q.2, s.cache.growBy, s.cache.growBy⟩ :: s.cache.blocks by rw [h3]] at hb
      rw [show t.cache.objSize = s.cache.objSize by rw [h3]]
      have hmem : ∀ o ∈ grown s.cache.objSize q.2 s.cache.growBy, inBlock s.cache.objSize b o = true ↔ b.base = q.2 :=
        fun o ho => hl1.inBlock_objects hb mem_cons_self (by dsimp only; rw [hob]; exact mem_reverse.2 ho)
      rcases mem_cons.1 hb with rfl | hb'
      · rw [countP_eq_length.2 (fun o ho => (hmem o ho).2 rfl)]
        unfold grown
        rw [length_reverse, length_map, length_range]
      · have hne : b.base ≠ q.2 := fun hx => (pairwise_cons.1 hl1.bases).1 b hb' hx.symm
        rw [h.blocks b hb', countP_eq_zero.2 (fun o ho hx => hne ((hmem o ho).1 hx))]
        rfl
  refine ⟨.inr ⟨rfl, ?_⟩, by rw [h3], fun p m hp x hx1 hx2 => ?_⟩
  · obtain ⟨n, hn⟩ : ∃ n, s.cache.growBy = n + 1 := ⟨s.cache.growBy - 1, by have := h.laid.grow; omega⟩
    rw [hn, grown_succ] at hok
    exact ⟨_, _, hok⟩
  · rw [h4 x (fun hx => ?_), hkept p m hp x hx1 hx2]
    have hpq : p ≠ q.2 := fun heq => by
      have hnd := hq.nodup
      rw [map_cons, nodup_cons] at hnd
      exact hnd.1 (mem_map.2 ⟨(p, m), mem_cons_of_mem _ hp, heq⟩)
    have := hq.apart (mem_cons_of_mem _ (mem_cons_of_mem _ hp)) mem_cons_self hpq
    omega

/-- **`slab_alloc`** fails, the list being empty, or returns a zeroed object that was not live; the bytes of the live objects are
kept. -/
theorem Ok.alloc (h : s.Ok others live F) : ((s.slabAlloc.2 = 0 ∧ F = [] ∧ s.slabAlloc.1.Ok others live []) ∨
      (s.slabAlloc.2 ≠ 0 ∧ s.slabAlloc.2 ∉ live ∧ (∃ F', s.slabAlloc.1.Ok others (s.slabAlloc.2 :: live) F') ∧
        ∀ i < s.cache.objSize, s.slabAlloc.1.heap.bytes (s.slabAlloc.2 + i) = 0)) ∧
    ∀ o ∈ live, ∀ i < s.cache.objSize, s.slabAlloc.1.heap.bytes (o + i) = s.heap.bytes (o + i) := by
  -- with a free object
  have htake : ∀ {t : Slab} {o : Nat} {F : List Nat}, t.Ok others live (o :: F) → t.takeHead.2 ≠ 0 ∧ t.takeHead.2 ∉ live ∧
      (∃ F', t.takeHead.1.Ok others (t.takeHead.2 :: live) F') ∧
      (∀ i < t.cache.objSize, t.takeHead.1.heap.bytes (t.takeHead.2 + i) = 0) ∧
      ∀ o' ∈ live, ∀ i < t.cache.objSize, t.takeHead.1.heap.bytes (o' + i) = t.heap.bytes (o' + i) := by
    intro t o F ht
    obtain ⟨h1, h2, h3⟩ := ht.takeHead
    have hoo := ht.mem_free mem_cons_self
    have hb := ht.laid.bound hoo
    have hnd := ht.nodup
    rw [cons_append, nodup_cons] at hnd
    have hout : o ∉ live := fun hx => hnd.1 (mem_append_right _ hx)
    rw [h1]
    refine ⟨by omega, hout, ⟨F, h2⟩, fun i hi => ?_, fun o' ho' i hi => ?_⟩
    · rw [h3, if_pos (by omega)]
    · have := ht.laid.apart hoo (ht.mem_live ho') (fun hx => hout (hx ▸ ho'))
      rw [h3, if_neg (by omega)]
  unfold slabAlloc
  by_cases hf : s.cache.freeHead = 0
  · rw [if_pos hf]
    obtain rfl : F = [] := by
      cases F with
      | nil => rfl
      | cons o F =>
        have hx := (ptr_some h.chain.1)
        exact absurd (hx.1.symm.trans hf) hx.2
    obtain ⟨hg, hsz, hb⟩ := h.grow
    have hlive : ∀ o ∈ live, ∀ i < s.cache.objSize, s.slabGrow.1.heap.bytes (o + i) = s.heap.bytes (o + i) := fun o ho i hi => by
      obtain ⟨base, hbase, hlo, hhi⟩ := h.laid.home (h.mem_live ho)
      exact hb base _ hbase (o + i) (by omega) (by omega)
    dsimp only
    rcases hg with ⟨hr, hok⟩ | ⟨hr, o, F, hok⟩
    · rw [hr]
      exact ⟨.inl ⟨rfl, rfl, hok⟩, hlive⟩
    · rw [hr, if_pos rfl]
      obtain ⟨h1, h2, h3, h4, h5⟩ := htake hok
      rw [hsz] at h4 h5
      exact ⟨.inr ⟨h1, h2, h3, h4⟩, fun o' ho' i hi => (h5 o' ho' i hi).trans (hlive o' ho' i hi)⟩
  · rw [if_neg hf]
    cases F with
    | nil => exact absurd (ptr_none h.chain) hf
    | cons o F =>
      obtain ⟨h1, h2, h3, h4, h5⟩ := htake h
      exact ⟨.inr ⟨h1, h2, h3, h4⟩, h5⟩

/-! ## `slab_reap` -/

theorem get64_lt (h : Kheap) (a : Nat) : h.get64 a < 2 ^ 64 := by
  have h8 := leRead_lt h.bytes 8 a
  rw [show (256 : Nat) ^ 8 = 2 ^ 64 by norm_num] at h8
  exact h8

theorem ptr_load (s : Slab) (slot : Option Nat) : ptr (s.load slot) = slot.elim (ptr s.cache.freeHead) (nextFree s.heap) := by
  cases slot with
  | none => rw [load, Option.elim_none]
  | some o => rw [load, Option.elim_some, nextFree]

theorem mem_skip {α : Type} {l1 l2 : List α} {x a : α} (ha : a ∈ l1 ++ l2) : a ∈ l1 ++ x :: l2 := by
  rw [mem_append] at ha ⊢
  exact ha.imp_right (mem_cons_of_mem _)

/-- `*slot = *(void **)o`: the object after `slot` leaves the list. -/
theorem store_unlink {F1 F2 : List Nat} {t : Slab} (ht : s.store F1.getLast? (s.heap.get64 o) = t)
    (hc : Chain (nextFree s.heap) (ptr s.cache.freeHead) (F1 ++ o :: F2)) (hnd : (F1 ++ o :: F2).Nodup)
    (hap : ∀ a ∈ F1 ++ o :: F2, ∀ b ∈ F1 ++ o :: F2, a ≠ b → a + 8 ≤ b ∨ b + 8 ≤ a) :
    Chain (nextFree t.heap) (ptr t.cache.freeHead) (F1 ++ F2) := by
  have hun := hc.unlink hnd
  subst ht
  cases hlast : F1.getLast? with
  | none =>
    rw [hlast, setLoc] at hun
    rw [store]
    unfold nextFree at hun ⊢
    dsimp only at hun ⊢
    exact hun
  | some a =>
    rw [hlast, setLoc] at hun
    have ha : a ∈ F1 := mem_of_getLast? hlast
    rw [store]
    refine hun.congr (fun x hx => ?_)
    have hx' : x ∈ F1 ++ o :: F2 := mem_skip hx
    dsimp only
    by_cases hxa : x = a
    · subst hxa
      rw [update_self, nextFree, nextFree, get64_put64 _ _ (get64_lt ..)]
    · rw [update_of_ne hxa]
      refine nextFree_congr (fun y h1 h2 => ?_)
      have := hap x hx' a (mem_append_left _ ha) hxa
      exact bytes_put64_of_ne _ (by omega)

def outside (lo hi o : Nat) : Bool := !decide (lo ≤ o ∧ o < hi)

structure Walk (l : List (Nat × Nat)) (s : Slab) (F : List Nat) : Prop where
  owned : s.heap.Owned l
  chain : Chain (nextFree s.heap) (ptr s.cache.freeHead) F
  nodup : F.Nodup
  apart : ∀ a ∈ F, ∀ b ∈ F, a ≠ b → a + 8 ≤ b ∨ b + 8 ≤ a
  inside : ∀ a ∈ F, ∃ p m, (p, m) ∈ l ∧ p ≤ a ∧ a + 8 ≤ p + m
  nFree : s.cache.nFree = F.length

section Unlink

variable {l : List (Nat × Nat)} {F1 F2 : List Nat}

theorem Walk.drop (h : Walk l s (F1 ++ o :: F2)) {t : Slab} (ht : s.store F1.getLast? (s.heap.get64 o) = t) :
    Walk l ⟨t.heap, { t.cache with nFree := dec32 t.cache.nFree }⟩ (F1 ++ F2) ∧
    t.cache = { s.cache with freeHead := t.cache.freeHead } ∧
    ∀ x, (∀ a ∈ F1 ++ F2, ¬ (a ≤ x ∧ x < a + 8)) → t.heap.bytes x = s.heap.bytes x := by
  have hun := store_unlink ht h.chain h.nodup h.apart
  have hn := h.nFree
  rw [show (F1 ++ o :: F2).length = (F1 ++ F2).length + 1 by simp; omega] at hn
  -- the store is in `free_head` or in an object of `F1`
  have hstore : t.heap.Owned l ∧ t.cache = { s.cache with freeHead := t.cache.freeHead } ∧
      ∀ x, (∀ a ∈ F1 ++ F2, ¬ (a ≤ x ∧ x < a + 8)) → t.heap.bytes x = s.heap.bytes x := by
    subst ht
    cases hlast : F1.getLast? with
    | none =>
      rw [store]
      exact ⟨h.owned, rfl, fun _ _ => rfl⟩
    | some a =>
      have ha : a ∈ F1 := mem_of_getLast? hlast
      obtain ⟨p, m, hp, h1, h2⟩ := h.inside a (mem_append_left _ ha)
      rw [store]
      dsimp only
      exact ⟨h.owned.put64 hp h1 h2 _, rfl, fun x hx => bytes_put64_of_ne _ (hx a (mem_append_left _ ha))⟩
  obtain ⟨h1, h2, h3⟩ := hstore
  refine ⟨⟨h1, hun, ?_, fun a ha b hb => h.apart a (mem_skip ha) b (mem_skip hb), fun a ha => h.inside a (mem_skip ha), ?_⟩, h2, h3⟩
  · exact h.nodup.sublist (List.Sublist.append_left (sublist_cons_self ..) _)
  · dsimp only
    rw [h2]
    dsimp only
    rw [hn, dec32_succ]

/-- **The inner loop of `slab_reap`** takes exactly the objects of the block off the list, and writes in the links of the
others only: `F1` is behind `slot`, `F2` is still to come. -/
theorem Walk.unlinkObjs (lo hi : Nat) (F2 : List Nat) : ∀ (F1 : List Nat) {s : Slab} {fuel : Nat}, Walk l s (F1 ++ F2) → F2.length < fuel →
    ∃ s', unlinkObjs lo hi fuel s F1.getLast? = some s' ∧ Walk l s' (F1 ++ F2.filter (outside lo hi)) ∧
      s'.cache = { s.cache with freeHead := s'.cache.freeHead, nFree := s'.cache.nFree } ∧
      ∀ x, (∀ a ∈ F1 ++ F2, ¬ (a ≤ x ∧ x < a + 8)) → s'.heap.bytes x = s.heap.bytes x := by
  induction F2 with
  | nil =>
    intro F1 s fuel h hfuel
    obtain ⟨k, rfl⟩ : ∃ k, fuel = k + 1 := ⟨fuel - 1, by omega⟩
    have hz : s.load F1.getLast? = 0 := ptr_none ((ptr_load s _).trans h.chain.rest)
    refine ⟨s, ?_, h, rfl, fun _ _ => rfl⟩
    rw [Slab.unlinkObjs]
    dsimp only
    rw [if_pos hz]
  | cons o F2 ih =>
    intro F1 s fuel h hfuel
    rw [length_cons] at hfuel
    obtain ⟨k, rfl⟩ : ∃ k, fuel = k + 1 := ⟨fuel - 1, by omega⟩
    obtain ⟨hload, ho0⟩ := ptr_some ((ptr_load s _).trans h.chain.rest.1)
    rw [Slab.unlinkObjs]
    dsimp only
    rw [hload, if_neg ho0]
    by_cases hr : lo ≤ o ∧ o < hi
    · have hf : (o :: F2).filter (outside lo hi) = F2.filter (outside lo hi) :=
        filter_cons_of_neg (by unfold outside; rw [decide_eq_true hr]; decide)
      obtain ⟨hw, hcache, hbytes⟩ := h.drop rfl
      obtain ⟨s', h1, h2, h3, h4⟩ := ih F1 hw (show F2.length < k by omega)
      rw [if_pos hr, hf]
      refine ⟨s', h1, h2, ?_, fun x hx => ?_⟩
      · rw [h3, hcache]
      · exact (h4 x (fun a ha => hx a (mem_skip ha))).trans (hbytes x (fun a ha => hx a (mem_skip ha)))
    · have hf : (o :: F2).filter (outside lo hi) = o :: F2.filter (outside lo hi) :=
        filter_cons_of_pos (by unfold outside; rw [decide_eq_false hr]; rfl)
      have hassoc : ∀ F : List Nat, F1 ++ o :: F = (F1 ++ [o]) ++ F := fun F => by simp
      rw [hassoc] at h
      obtain ⟨s', h1, h2, h3, h4⟩ := ih (F1 ++ [o]) h (show F2.length < k by omega)
      rw [getLast?_concat] at h1
      rw [if_neg hr, hf, hassoc F2, hassoc (F2.filter _)]
      exact ⟨s', h1, h2, h3, h4⟩

end Unlink

section Release

variable {s : Slab} {others : List (Nat × Nat)} {live F : List Nat} {pre bs : List SlabBlock} {b : SlabBlock}

variable {h : Kheap} {c : SlabCache}

theorem Laid.objs_filter (hl : Laid h c others) (hb : c.blocks = pre ++ b :: bs) :
    (objs c).filter (fun o => !inBlock c.objSize b o) = (pre ++ bs).flatMap (objects c.objSize) := by
  have hbm : b ∈ c.blocks := by rw [hb]; simp
  have hbases := hl.bases
  rw [hb, pairwise_append, pairwise_cons] at hbases
  have hothers : ∀ b' ∈ pre ++ bs, b' ∈ c.blocks ∧ b.base ≠ b'.base := fun b' hb' => by
    rcases mem_append.1 hb' with hp | hp
    · exact ⟨by rw [hb]; simp [hp], fun hx => hbases.2.2 b' hp b mem_cons_self hx.symm⟩
    · exact ⟨by rw [hb]; simp [hp], hbases.2.1.1 b' hp⟩
  have hkeep : ∀ L : List SlabBlock, (∀ b' ∈ L, b' ∈ pre ++ bs) →
      (L.flatMap (objects c.objSize)).filter (fun o => !inBlock c.objSize b o) = L.flatMap (objects c.objSize) := fun L hL => by
    refine filter_eq_self.2 (fun o ho => ?_)
    obtain ⟨b', hb', hob⟩ := mem_flatMap.1 ho
    obtain ⟨h1, h2⟩ := hothers b' (hL b' hb')
    rw [Bool.not_eq_true', ← Bool.not_eq_true]
    exact fun hx => h2 ((hl.inBlock_objects hbm h1 hob).1 hx)
  have hnone : (objects c.objSize b).filter (fun o => !inBlock c.objSize b o) = [] := by
    refine filter_eq_nil_iff.2 (fun o ho => ?_)
    rw [(hl.inBlock_objects hbm hbm ho).2 rfl]
    decide
  unfold objs
  rw [hb, flatMap_append, flatMap_cons, filter_append, filter_append, hnone,
    hkeep pre (fun b' h => mem_append_left _ h), hkeep bs (fun b' h => mem_append_right _ h), nil_append,
    flatMap_append]

theorem Laid.objs_count (hl : Laid h c others) (hb : c.blocks = pre ++ b :: bs) :
    (objs c).countP (inBlock c.objSize b) = b.nObjs := by
  have hfilter := congrArg length (hl.objs_filter hb)
  have hsplit := length_eq_countP_add_countP (inBlock c.objSize b) (l := objs c)
  rw [← countP_eq_length_filter] at hfilter
  have hlen : (objs c).length = ((pre ++ bs).flatMap (objects c.objSize)).length + b.nObjs := by
    unfold objs
    rw [hb, flatMap_append, flatMap_append, flatMap_cons, length_append, length_append,
      length_append, show (objects c.objSize b).length = b.nObjs by simp [objects]]
    omega
  have heq : (objs c).countP (fun o => decide ¬ inBlock c.objSize b o = true) =
      (objs c).countP (fun o => !inBlock c.objSize b o) := countP_congr (fun o _ => by simp)
  omega

/-- **A block is entirely free exactly when none of its objects is live.** -/
theorem Ok.idle_iff (h : s.Ok others live F) (hb : s.cache.blocks = pre ++ b :: bs) :
    b.nFree = b.nObjs ↔ ∀ o ∈ live, inBlock s.cache.objSize b o = false := by
  have hcount := h.perm.countP_eq (inBlock s.cache.objSize b)
  rw [countP_append, h.laid.objs_count hb] at hcount
  rw [h.blocks b (by rw [hb]; simp)]
  constructor
  · intro hfull o ho
    have hz : live.countP (inBlock s.cache.objSize b) = 0 := by omega
    simpa using countP_eq_zero.1 hz o ho
  · intro hno
    have hz : live.countP (inBlock s.cache.objSize b) = 0 := countP_eq_zero.2 (fun o ho => by simp [hno o ho])
    omega

theorem allocs_perm (hb : c.blocks = pre ++ b :: bs) :
    (allocs c ++ others).Perm ((b.base, c.objSize * c.growBy) :: (b.addr, 24) ::
      ((pre ++ bs).flatMap (fun b => [(b.base, c.objSize * c.growBy), (b.addr, 24)]) ++ others)) := by
  unfold allocs
  rw [hb, flatMap_append, flatMap_cons, flatMap_append, append_assoc, append_assoc, append_assoc]
  exact (perm_append_comm_assoc _ _ _)

theorem Ok.walk (h : s.Ok others live F) : Walk (allocs s.cache ++ others) s F := by
  have hsz := h.laid.size
  refine ⟨h.laid.owned, h.chain, (nodup_append.1 h.nodup).1, fun a ha a' ha' hne => ?_, fun a ha => ?_, h.nFree⟩
  · have := h.laid.apart (h.mem_free ha) (h.mem_free ha') hne
    omega
  · obtain ⟨base, hbase, h1, h2⟩ := h.laid.home (h.mem_free ha)
    exact ⟨base, _, hbase, h1, by omega⟩

/-- **A block with no live object is given back**: its objects leave the free list, the live ones keep their bytes. -/
theorem Ok.release (h : s.Ok others live F) (hb : s.cache.blocks = pre ++ b :: bs) (hidle : b.nFree = b.nObjs) :
    ∃ s' F', s.release pre b bs = some s' ∧ s'.Ok others live F' ∧ s'.cache.blocks = pre ++ bs ∧
      s'.cache.objSize = s.cache.objSize ∧ s'.cache.growBy = s.cache.growBy ∧
      ∀ o ∈ live, ∀ i < s.cache.objSize, s'.heap.bytes (o + i) = s.heap.bytes (o + i) := by
  have hbm : b ∈ s.cache.blocks := by rw [hb]; simp
  have hlive := (h.idle_iff hb).1 hidle
  have hsz := h.laid.size
  have hlen := h.length
  set r := b.base + u32 (b.nObjs * s.cache.objSize)
  have hout : ∀ o, outside b.base r o = !inBlock s.cache.objSize b o := fun _ => rfl
  obtain ⟨t, h1, hw, hcache, hbytes⟩ := Walk.unlinkObjs b.base r F []
    h.walk (show F.length < heapSize + 1 by omega)
  rw [funext hout] at hw
  -- the heap without the block
  obtain ⟨ho1, hk1⟩ := (hw.owned.perm (allocs_perm hb)).kfree_head
  obtain ⟨ho2, hk2⟩ := ho1.kfree_head
  have hkept := (hk1.mono (subset_cons_self _ _)).trans hk2
  have hsize : t.cache.objSize = s.cache.objSize := by rw [hcache]
  have hgrow : t.cache.growBy = s.cache.growBy := by rw [hcache]
  have hl : Laid ((t.heap.kfree b.base).kfree b.addr) { t.cache with blocks := pre ++ bs } others := by
    refine ⟨by rw [hsize]; exact hsz, by rw [hgrow]; exact h.laid.grow, by rw [hsize, hgrow]; exact h.laid.fits, fun b' hb' => ?_, ?_⟩
    · rw [hgrow]
      exact h.laid.count b' (by rw [hb]; exact mem_skip hb')
    · unfold allocs
      dsimp only
      rw [hsize, hgrow]
      exact ho2
  have hperm : (F.filter (fun o => !inBlock s.cache.objSize b o) ++ live).Perm (objs { t.cache with blocks := pre ++ bs }) := by
    have hp := h.perm.filter (fun o => !inBlock s.cache.objSize b o)
    have hall : live.filter (fun o => !inBlock s.cache.objSize b o) = live :=
      filter_eq_self.2 (fun o ho => by rw [hlive o ho]; rfl)
    rw [h.laid.objs_filter hb, filter_append, hall] at hp
    unfold objs
    dsimp only
    rw [hsize]
    exact hp
  have hsame : ∀ o ∈ objs { t.cache with blocks := pre ++ bs }, ∀ x, o ≤ x → x < o + s.cache.objSize →
      ((t.heap.kfree b.base).kfree b.addr).bytes x = t.heap.bytes x := fun o ho x hx1 hx2 => by
    obtain ⟨base, hbase, hlo, hhi⟩ := hl.home ho
    unfold allocs at hbase
    dsimp only at hbase hhi
    rw [hsize, hgrow] at hbase hhi
    exact hkept base _ hbase x (by omega) (by omega)
  refine ⟨⟨(t.heap.kfree b.base).kfree b.addr, { t.cache with blocks := pre ++ bs }⟩,
    F.filter (fun o => !inBlock s.cache.objSize b o), ?_, ⟨hl, ?_, hperm, ?_, ?_, fun b' hb' => ?_⟩, rfl, hsize, hgrow, fun o ho i hi => ?_⟩
  · unfold Slab.release
    rw [getLast?_nil] at h1
    rw [h1]
  · refine chain_congr hw.chain (fun o ho x hx1 hx2 => hsame o (hperm.subset (mem_append_left _ ho)) x hx1 (by omega))
  · exact hw.nFree
  · dsimp only
    rw [hcache]
    exact h.nAlloc
  · dsimp only
    rw [hsize, countP_filter, h.blocks b' (by rw [hb]; exact mem_skip hb')]
    refine countP_congr (fun o ho => ?_)
    -- an object of another block is not in `b`
    have hbases := h.laid.bases
    rw [hb, pairwise_append, pairwise_cons] at hbases
    have hne : b.base ≠ b'.base := by
      rcases mem_append.1 hb' with hp | hp
      · exact fun hx => hbases.2.2 b' hp b mem_cons_self hx.symm
      · exact hbases.2.1.1 b' hp
    rw [h.laid.inBlock_iff (by rw [hb]; exact mem_skip hb'), Bool.and_eq_true, h.laid.inBlock_iff (by rw [hb]; exact mem_skip hb'),
      Bool.not_eq_true', ← Bool.not_eq_true, h.laid.inBlock_iff hbm]
    have := h.laid.blocks_apart hbm (show b' ∈ s.cache.blocks by rw [hb]; exact mem_skip hb') hne
    omega
  · dsimp only
    rw [hsame o (hperm.subset (mem_append_right _ ho)) (o + i) (by omega) (by omega)]
    refine hbytes (o + i) (fun a ha hx => ?_)
    have hne : a ≠ o := fun hx => (nodup_append.1 h.nodup).2.2 a ha o ho hx
    have := h.laid.apart (h.mem_free ha) (h.mem_live ho) hne
    omega

end Release

/-- **The outer loop of `slab_reap`** gives back the blocks that are entirely free and keeps the others. -/
theorem Ok.reapFrom (rest : List SlabBlock) : ∀ (pre : List SlabBlock) {s : Slab}
    {F : List Nat} (n : Nat), s.Ok others live F → s.cache.blocks = pre ++ rest →
    ∃ s' n' F', reapFrom pre rest s n = some (s', n') ∧ s'.Ok others live F' ∧
      s'.cache.blocks = pre ++ rest.filter (fun b => b.nFree != b.nObjs) ∧ s'.cache.objSize = s.cache.objSize ∧
      s'.cache.growBy = s.cache.growBy ∧
      ∀ o ∈ live, ∀ i < s.cache.objSize, s'.heap.bytes (o + i) = s.heap.bytes (o + i) := by
  induction rest with
  | nil => exact fun pre s F n h hb => ⟨s, n, F, rfl, h, hb, rfl, rfl, fun _ _ _ _ => rfl⟩
  | cons b bs ih =>
    intro pre s F n h hb
    rw [Slab.reapFrom]
    by_cases hidle : b.nFree = b.nObjs
    · obtain ⟨t, F1, h1, h2, h3, h4, h5, h6⟩ := h.release hb hidle
      rw [if_neg (not_not.2 hidle), h1, filter_cons_of_neg (by simp [hidle])]
      obtain ⟨s', n', F', g1, g2, g3, g4, g5, g6⟩ := ih pre _ h2 h3
      rw [h4] at g6
      exact ⟨s', n', F', g1, g2, g3, g4.trans h4, g5.trans h5, fun o ho i hi => (g6 o ho i hi).trans (h6 o ho i hi)⟩
    · rw [if_pos hidle, filter_cons_of_pos (by simp [hidle])]
      obtain ⟨s', n', F', g1, g2, g3, g4⟩ := ih (pre ++ [b]) n h (by rw [hb]; simp)
      exact ⟨s', n', F', g1, g2, by rw [g3]; simp, g4⟩

/-- **`slab_reap`** keeps exactly the blocks that have a live object, and the bytes of the live objects. -/
theorem Ok.reap (h : s.Ok others live F) : ∃ s' n F', s.slabReap = some (s', n) ∧ s'.Ok others live F' ∧
      s'.cache.blocks = s.cache.blocks.filter (fun b => live.any (inBlock s.cache.objSize b)) ∧
      s'.cache.objSize = s.cache.objSize ∧
      ∀ o ∈ live, ∀ i < s.cache.objSize, s'.heap.bytes (o + i) = s.heap.bytes (o + i) := by
  obtain ⟨s', n, F', h1, h2, h3, h4, -, h5⟩ := h.reapFrom s.cache.blocks [] 0 rfl
  refine ⟨s', n, F', h1, h2, ?_, h4, h5⟩
  rw [h3, nil_append]
  refine filter_congr (fun b hb => ?_)
  obtain ⟨pre, bs, hsplit⟩ := append_of_mem hb
  rw [Bool.eq_iff_iff, bne_iff_ne, any_eq_true, Ne, h.idle_iff hsplit]
  push Not
  exact ⟨fun ⟨o, ho, hx⟩ => ⟨o, ho, by simpa using hx⟩, fun ⟨o, ho, hx⟩ => ⟨o, ho, by simpa using hx⟩⟩

/-! ## Every run -/

/-- The calls on a cache, and the stores of its users into the objects they hold: `v` into byte `i` of the object `o`. -/
inductive SlabOp where
  | alloc
  | free (o : Nat)
  | reap
  | store (o i : Nat) (v : UInt8)

structure InUse where
  slab : Slab
  live : List Nat

def InUse.apply (u : InUse) : SlabOp → Option InUse
  | .alloc => some ⟨u.slab.slabAlloc.1, if u.slab.slabAlloc.2 = 0 then u.live else u.slab.slabAlloc.2 :: u.live⟩
  | .free o => some ⟨u.slab.slabFree o, u.live.erase o⟩
  | .reap => u.slab.slabReap.map (fun r => ⟨r.1, u.live⟩)
  | .store o i v => some ⟨{ u.slab with heap := u.slab.heap.setByte (o + i) v }, u.live⟩

def useStep (u : Option InUse) (op : SlabOp) : Option InUse × Unit := (u.bind (·.apply op), ())

def InUse.Allowed (u : InUse) : SlabOp → Prop
  | .free o => o ∈ u.live
  | .store o i _ => o ∈ u.live ∧ i < u.slab.cache.objSize
  | _ => True

theorem Ok.poke {i : Nat} (h : s.Ok others live F) (ho : o ∈ live)
    (hi : i < s.cache.objSize) (v : UInt8) : (Slab.mk (s.heap.setByte (o + i) v) s.cache).Ok others live F := by
  obtain ⟨base, hbase, hlo, hhi⟩ := h.laid.home (h.mem_live ho)
  have hsz := h.laid.size
  refine ⟨{ h.laid with owned := h.laid.owned.setByte hbase (by omega) (by omega) v }, ?_, h.perm, h.nFree, h.nAlloc, h.blocks⟩
  refine chain_congr h.chain (fun o' ho' x h1 h2 => ?_)
  have hne : o' ≠ o := fun hx => (nodup_append.1 h.nodup).2.2 o' ho' o ho hx
  have := h.laid.apart (h.mem_free ho') (h.mem_live ho) hne
  rw [bytes_setByte]
  exact update_of_ne (by omega) _ _

theorem Ok.apply {u : InUse} (h : u.slab.Ok others u.live F) (op : SlabOp)
    (hop : u.Allowed op) : ∃ u' F', u.apply op = some u' ∧ u'.slab.Ok others u'.live F' := by
  cases op with
  | alloc =>
    obtain ⟨hr, -⟩ := h.alloc
    rcases hr with ⟨hz, -, hok⟩ | ⟨hz, -, ⟨F', hok⟩, -⟩
    · exact ⟨_, [], rfl, by dsimp only; rw [if_pos hz]; exact hok⟩
    · exact ⟨_, F', rfl, by dsimp only; rw [if_neg hz]; exact hok⟩
  | free o => exact ⟨_, _, rfl, (h.free hop).1⟩
  | reap =>
    obtain ⟨s', n, F', heq, hok, -⟩ := h.reap
    exact ⟨⟨s', u.live⟩, F', by rw [InUse.apply, heq]; rfl, hok⟩
  | store o i v => exact ⟨_, F, rfl, h.poke hop.1 hop.2 v⟩

theorem slabCreate_ok {growBy : Nat} (ho : h.Owned others)
    (hc : slabCreate h objSize growBy = (h', some c)) (hfit : c.objSize * c.growBy < 2 ^ 32) :
    ∃ p, (Slab.mk h' c).Ok ((p, 48) :: others) [] [] := by
  obtain ⟨hr, -⟩ := ho.kmalloc (show 48 ≤ 2 ^ 64 - 16 by decide)
  unfold slabCreate at hc
  dsimp only at hc
  rcases hr with hz | ⟨hz, hown⟩
  · rw [hz, if_pos rfl] at hc
    cases hc
  rw [if_neg hz] at hc
  obtain ⟨rfl, hcache⟩ := Prod.mk.inj hc
  obtain rfl := Option.some.inj hcache
  refine ⟨_, ⟨?_, ?_, hfit, fun b hb => (by cases hb), hown⟩, rfl, List.Perm.refl _, rfl, rfl, fun b hb => (by cases hb)⟩
  · dsimp only
    split <;> omega
  · dsimp only
    split <;> omega

/-- **The slab cache over every run.**  From a heap in any order and a cache of `slab_create` whose block size fits 32 bits,
whatever is allocated, freed, reaped and stored: no loop hangs; the free list ends and has exactly the objects of the blocks that
are not live, each once; the counters count them; the next `slab_alloc` fails only with an empty list, and else returns a
zeroed object that is not live; and the next `slab_reap` ends, keeps exactly the blocks with a live object, leaves the heap with
the allocations of these blocks and of the other owners, and changes no byte of a live object. -/
theorem slab_cache_invariant (h h' : Kheap) (others : List (Nat × Nat)) (ho : h.Owned others) (objSize growBy : Nat)
    (c : SlabCache) (hc : slabCreate h objSize growBy = (h', some c)) (hfit : c.objSize * c.growBy < 2 ^ 32) (ops : List SlabOp)
    (hops : ∀ pre op post, ops = pre ++ op :: post →
      ∀ u, (run useStep (some ⟨⟨h', c⟩, []⟩) pre).1 = some u → u.Allowed op) :
    ∃ u, (run useStep (some ⟨⟨h', c⟩, []⟩) ops).1 = some u ∧
      (∃ F, Chain (nextFree u.slab.heap) (ptr u.slab.cache.freeHead) F ∧ F.Nodup ∧
        (∀ o, o ∈ F ↔ o ∈ objs u.slab.cache ∧ o ∉ u.live) ∧ (∀ o ∈ u.live, o ∈ objs u.slab.cache) ∧
        u.slab.cache.nFree = F.length ∧
        ∀ b ∈ u.slab.cache.blocks, b.nFree = (objects u.slab.cache.objSize b).countP (· ∈ F)) ∧
      u.live.Nodup ∧ u.slab.cache.nAlloc = u.live.length ∧ (u.slab.slabAlloc.2 = 0 → u.slab.cache.freeHead = 0) ∧
      (u.slab.slabAlloc.2 ≠ 0 → u.slab.slabAlloc.2 ∉ u.live ∧ u.slab.slabAlloc.2 ∈ objs u.slab.slabAlloc.1.cache ∧
        ∀ i < u.slab.cache.objSize, u.slab.slabAlloc.1.heap.bytes (u.slab.slabAlloc.2 + i) = 0) ∧
      ∃ s n, u.slab.slabReap = some (s, n) ∧
        s.cache.blocks = u.slab.cache.blocks.filter (fun b => (objects u.slab.cache.objSize b).any (· ∈ u.live)) ∧
        (∃ p, u.slab.heap.Owned (allocs u.slab.cache ++ (p, 48) :: others) ∧ s.heap.Owned (allocs s.cache ++ (p, 48) :: others)) ∧
        ∀ o ∈ u.live, ∀ i < u.slab.cache.objSize, s.heap.bytes (o + i) = u.slab.heap.bytes (o + i) := by
  obtain ⟨p, h0⟩ := slabCreate_ok ho hc hfit
  obtain ⟨u, hu, F, hok⟩ : ∃ u, (run useStep (some ⟨⟨h', c⟩, []⟩) ops).1 = some u ∧ ∃ F, u.slab.Ok ((p, 48) :: others) u.live F := by
    refine run_inv (P := fun u => ∃ u' : InUse, u = some u' ∧ ∃ F, u'.slab.Ok ((p, 48) :: others) u'.live F)
      (C := fun u op => ∀ u' : InUse, u = some u' → u'.Allowed op) (fun u op hu hop => ?_) ops _ ⟨_, rfl, [], h0⟩ hops
    obtain ⟨u', rfl, F, hok⟩ := hu
    obtain ⟨u2, F2, heq, hok2⟩ := hok.apply op (hop u' rfl)
    exact ⟨u2, heq, F2, hok2⟩
  have hnd := hok.nodup
  have hmem : ∀ o, o ∈ F ↔ o ∈ objs u.slab.cache ∧ o ∉ u.live := fun o => by
    constructor
    · exact fun hoF => ⟨hok.mem_free hoF, fun hl => (nodup_append.1 hnd).2.2 o hoF o hl rfl⟩
    · rintro ⟨hobj, hnl⟩
      exact (mem_append.1 (hok.perm.symm.subset hobj)).resolve_right hnl
  refine ⟨u, hu, ⟨F, hok.chain, (nodup_append.1 hnd).1, hmem, fun o => hok.mem_live, hok.nFree, fun b hb => ?_⟩,
    (nodup_append.1 hnd).2.1, hok.nAlloc, ?_, ?_, ?_⟩
  · -- both sides count the objects of `b` on the list
    rw [hok.blocks b hb, countP_eq_length_filter, countP_eq_length_filter]
    refine List.Perm.length_eq ((perm_ext_iff_of_nodup ((nodup_append.1 hnd).1.filter _)
      ((hok.laid.objects_nodup b).filter _)).2 (fun o => ?_))
    rw [mem_filter, mem_filter, decide_eq_true_eq]
    constructor
    · exact fun ⟨h1, h2⟩ => ⟨(hok.laid.inBlock_iff_mem hb (hok.mem_free h1)).1 h2, h1⟩
    · exact fun ⟨h1, h2⟩ => ⟨h2, (hok.laid.inBlock_iff_mem hb (hok.mem_free h2)).2 h1⟩
  · intro hz
    rcases hok.alloc.1 with ⟨-, rfl, -⟩ | ⟨hnz, -⟩
    · exact ptr_none hok.chain
    · exact absurd hz hnz
  · intro hnz
    rcases hok.alloc.1 with ⟨hz, -⟩ | ⟨-, h1, ⟨F', h2⟩, h3⟩
    · exact absurd hz hnz
    · exact ⟨h1, h2.mem_live mem_cons_self, h3⟩
  · obtain ⟨s', n, F', h1, h2, h3, h4, h5⟩ := hok.reap
    refine ⟨s', n, h1, ?_, ⟨p, hok.laid.owned, h2.laid.owned⟩, h5⟩
    rw [h3]
    refine filter_congr (fun b hb => ?_)
    rw [Bool.eq_iff_iff, any_eq_true, any_eq_true]
    constructor
    · exact fun ⟨o, h1, h2⟩ => ⟨o, (hok.laid.inBlock_iff_mem hb (hok.mem_live h1)).1 h2, decide_eq_true h1⟩
    · exact fun ⟨o, h1, h2⟩ => ⟨o, of_decide_eq_true h2, (hok.laid.inBlock_iff_mem hb (hok.mem_live (of_decide_eq_true h2))).2 h1⟩

/-- A fresh heap and a cache of 16-byte objects, four to a block. -/
theorem slab_cache_invariant_fresh :
    ∃ u, (run useStep (some ⟨⟨(slabCreate (heapInit fun _ => 0) 16 4).1, ⟨16, 0, [], 0, 0, 0, 4⟩⟩, []⟩)
      [.alloc, .alloc, .reap]).1 = some u ∧ u.live.Nodup ∧ u.slab.cache.nAlloc = u.live.length := by
  have hc : slabCreate (heapInit fun _ => 0) 16 4 =
      ((slabCreate (heapInit fun _ => 0) 16 4).1, some ⟨16, 0, [], 0, 0, 0, 4⟩) := by
    have hz : ((heapInit fun _ => 0).kmalloc 48).2 ≠ 0 := by decide +kernel
    unfold slabCreate
    dsimp only
    rw [if_neg hz]
    rfl
  obtain ⟨u, hu, -, h2, h3, -⟩ := slab_cache_invariant (heapInit fun _ => 0) _ [] ⟨_, Pool.boot_holds _⟩ 16 4 _ hc (by decide)
    [.alloc, .alloc, .reap] (fun pre op post hp u _ => by
      have hop : op ∈ [SlabOp.alloc, .alloc, .reap] := by rw [hp]; simp
      simp only [mem_cons, not_mem_nil, or_false] at hop
      rcases hop with rfl | rfl | rfl <;> trivial)
  exact ⟨u, hu, h2, h3⟩

end Slab
end Noxis
