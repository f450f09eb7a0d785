import Noxis.Linked
import Noxis.Run
/-!
# BufCache — the LRU buffer cache (`fs/noxfs/buffer.c`)

Sixteen buffers, eight hash chains and one LRU list with two sentinels, all linked through the buffers themselves.  A
buffer is named by its place in `g_buffers`; `Node` adds the sentinels.  The loops carry fuel, and `none` is a loop that
does not end.  `Lru` and `Chains` say what the links are, and what the list operations make of them.
-/
namespace Noxis

open List Function
open Linked

def NBUF : Nat := 16
def HASH_SIZE : Nat := 8
def BUF_SIZE : Nat := 512

abbrev Block := Fin BUF_SIZE → UInt8
abbrev Bid := Fin NBUF

inductive Node where
  | head
  | tail
  | buf (i : Bid)
deriving DecidableEq

/-- The flags are `B_VALID`, `B_DIRTY` and `B_BUSY`. -/
structure Buf where
  dev : UInt32
  blockno : UInt32
  valid : Bool
  dirty : Bool
  busy : Bool
  data : Block

structure Cache where
  bufs : Bid → Buf
  hash : Fin HASH_SIZE → Option Bid
  hashNext : Bid → Option Bid
  next : Node → Option Node
  prev : Node → Option Node
  disk : UInt32 → UInt32 → Block

namespace Cache

def hashOf (dev blockno : UInt32) : Fin HASH_SIZE := ⟨((dev * 31 + blockno) % 8).toNat, by
  rw [UInt32.toNat_mod]; exact Nat.mod_lt _ (by decide)⟩

def setBuf (c : Cache) (i : Bid) (b : Buf) : Cache := { c with bufs := update c.bufs i b }

def lruRemove (c : Cache) (i : Bid) : Cache :=
  match c.prev (.buf i), c.next (.buf i) with
  | some p, some n =>
    { c with next := update (update c.next p (some n)) (.buf i) none
             prev := update (update c.prev n (some p)) (.buf i) none }
  | _, _ => c

def lruInsertHead (c : Cache) (i : Bid) : Cache :=
  match c.next .head with
  | some n =>
    { c with next := update (update c.next (.buf i) (some n)) .head (some (.buf i))
             prev := update (update c.prev (.buf i) (some .head)) n (some (.buf i)) }
  | none => c

def hashInsert (c : Cache) (i : Bid) : Cache :=
  let h := hashOf (c.bufs i).dev (c.bufs i).blockno
  { c with hashNext := update c.hashNext i (c.hash h), hash := update c.hash h (some i) }

def hashRemove (c : Cache) (i : Bid) : Option Cache :=
  let h := hashOf (c.bufs i).dev (c.bufs i).blockno
  match findLoc c.hashNext i NBUF none (c.hash h) with
  | none => none
  | some none => some c
  | some (some loc) =>
    let r := setLoc c.hashNext (c.hash h) loc (c.hashNext i)
    some { c with hash := update c.hash h r.1, hashNext := r.2 }

def hashLookup (c : Cache) (dev blockno : UInt32) : Option (Option Bid) :=
  scan c.hashNext (fun i => (c.bufs i).dev == dev && (c.bufs i).blockno == blockno) NBUF (c.hash (hashOf dev blockno))

/-- `blk_rw` with `BLK_WRITE`, on a device that never fails. -/
def writeBlock (disk : UInt32 → UInt32 → Block) (dev blockno : UInt32) (data : Block) : UInt32 → UInt32 → Block :=
  update disk dev (update (disk dev) blockno data)

def bwrite (c : Cache) (i : Bid) : Cache :=
  if !(c.bufs i).dirty then c
  else
    let b := c.bufs i
    { c with disk := writeBlock c.disk b.dev b.blockno b.data, bufs := update c.bufs i { b with dirty := false } }

def onBuf (P : Bid → Bool) : Node → Bool
  | .buf i => P i
  | _ => false

def nodeBid : Node → Option Bid
  | .buf i => some i
  | _ => none

/-- `_evict`: the least recently used buffer that is neither busy nor dirty, else one that is not busy, written out. -/
def evict (c : Cache) : Option (Cache × Option Bid) :=
  match scanUntil c.prev .head (onBuf (fun i => !(c.bufs i).busy && !(c.bufs i).dirty)) (NBUF + 1) (c.prev .tail) with
  | none => none
  | some (some p) => some (c, nodeBid p)
  | some none =>
    match scanUntil c.prev .head (onBuf (fun i => !(c.bufs i).busy)) (NBUF + 1) (c.prev .tail) with
    | none => none
    | some none => some (c, none)
    | some (some p) =>
      match nodeBid p with
      | some i => some (c.bwrite i, some i)
      | none => some (c, none)

def hit (c : Cache) (i : Bid) : Cache :=
  let b := c.bufs i
  let b := if !b.valid then { b with data := c.disk b.dev b.blockno, valid := true } else b
  let c := ((c.setBuf i b).lruRemove i).lruInsertHead i
  c.setBuf i { c.bufs i with busy := true }

def reuse (c : Cache) (i : Bid) (dev blockno : UInt32) : Option Cache :=
  match if (c.bufs i).valid then c.hashRemove i else some c with
  | none => none
  | some c =>
    let c := c.setBuf i ⟨dev, blockno, true, false, true, c.disk dev blockno⟩
    some (((c.lruRemove i).hashInsert i).lruInsertHead i)

def bread (c : Cache) (dev blockno : UInt32) : Option (Cache × Option Bid) :=
  match c.hashLookup dev blockno with
  | none => none
  | some (some i) => some (c.hit i, some i)
  | some none =>
    match c.evict with
    | none => none
    | some (c, none) => some (c, none)
    | some (c, some i) =>
      match c.reuse i dev blockno with
      | none => none
      | some c => some (c, some i)

def brelse (c : Cache) (i : Bid) : Cache := c.setBuf i { c.bufs i with busy := false }

def initBuf (c : Cache) (i : Bid) : Cache :=
  ({ c.setBuf i { c.bufs i with valid := false, dirty := false, busy := false, dev := 0, blockno := 0 } with
    hashNext := update c.hashNext i none } : Cache).lruInsertHead i

def bufInit (c : Cache) : Cache :=
  let c := { c with next := update (update c.next .head (some .tail)) .tail none
                    prev := update (update c.prev .head none) .tail (some .head) }
  let c := (List.finRange NBUF).foldl initBuf c
  { c with hash := fun _ => none }

/-! ## What the list operations leave alone -/

theorem lruRemove_frame (c : Cache) (i : Bid) : (c.lruRemove i).bufs = c.bufs ∧ (c.lruRemove i).hash = c.hash ∧
    (c.lruRemove i).hashNext = c.hashNext ∧ (c.lruRemove i).disk = c.disk := by
  unfold lruRemove
  split <;> exact ⟨rfl, rfl, rfl, rfl⟩

theorem lruInsertHead_frame (c : Cache) (i : Bid) :
    let r := c.lruInsertHead i
    r.bufs = c.bufs ∧ r.hash = c.hash ∧ r.hashNext = c.hashNext ∧ r.disk = c.disk := by
  unfold lruInsertHead
  split <;> exact ⟨rfl, rfl, rfl, rfl⟩

/-! ## The LRU list -/

/-- The LRU list is `L`, from the head to the tail, and has every buffer once. -/
structure Lru (c : Cache) (L : List Bid) : Prop where
  linked : Doubly c.next c.prev .head (L.map .buf) .tail
  nodup : L.Nodup
  all : ∀ i, i ∈ L

variable {L : List Bid}

theorem nodes_nodup (h : L.Nodup) : (Node.head :: L.map Node.buf ++ [Node.tail]).Nodup := by
  rw [cons_append, nodup_cons, nodup_append]
  refine ⟨by simp, h.map (fun _ _ he => Node.buf.inj he), by simp, fun a ha b hb => ?_⟩
  rw [mem_singleton] at hb
  subst hb
  rintro rfl
  simp at ha

variable {c c' : Cache} {i : Bid}

theorem lruRemove_linked {L1 L2 : List Bid}
    (h : Doubly c.next c.prev .head ((L1 ++ i :: L2).map .buf) .tail) (hnd : (L1 ++ i :: L2).Nodup) :
    Doubly (c.lruRemove i).next (c.lruRemove i).prev .head ((L1 ++ L2).map .buf) .tail := by
  have hnd' := nodes_nodup hnd
  rw [map_append, map_cons] at h hnd'
  obtain ⟨x, y, hp, hn, hd⟩ := Doubly.remove h hnd'
  unfold lruRemove
  simp only [hp, hn]
  rw [map_append]
  exact hd

theorem lruInsertHead_linked (h : Doubly c.next c.prev .head (L.map .buf) .tail) (hnd : L.Nodup) (hi : i ∉ L) :
    Doubly (c.lruInsertHead i).next (c.lruInsertHead i).prev .head ((i :: L).map .buf) .tail := by
  obtain ⟨y, hy, hd⟩ := Doubly.insert (a := Node.buf i) h (nodes_nodup hnd) (by simpa using hi)
  unfold lruInsertHead
  simp only [hy]
  exact hd

/-- **A buffer moves to the head**; what happens to the cache between its removal and its insertion does not matter as long
as the links are kept. -/
theorem Lru.touch (h : c.Lru L) (i : Bid) (c' : Cache) (hn : c'.next = (c.lruRemove i).next)
    (hp : c'.prev = (c.lruRemove i).prev) : (c'.lruInsertHead i).Lru (i :: L.erase i) := by
  obtain ⟨L1, L2, hni, rfl, herase⟩ := exists_erase_eq (h.all i)
  have hnd' : (L1 ++ L2).Nodup := herase ▸ h.nodup.erase i
  have hi : i ∉ L1 ++ L2 := herase ▸ h.nodup.not_mem_erase
  have hrem := lruRemove_linked h.linked h.nodup
  rw [← hn, ← hp] at hrem
  rw [herase]
  refine ⟨lruInsertHead_linked hrem hnd' hi, nodup_cons.2 ⟨hi, hnd'⟩, fun j => ?_⟩
  have := h.all j
  simp only [mem_append, mem_cons] at this ⊢
  tauto

theorem Lru.congr (h : c.Lru L) (hn : c'.next = c.next) (hp : c'.prev = c.prev) : c'.Lru L :=
  ⟨by rw [hn, hp]; exact h.linked, h.nodup, h.all⟩

theorem Lru.length (h : c.Lru L) : L.length = NBUF := by
  have h1 := h.nodup.length_le_card
  have h2 := List.Nodup.length_le_of_subset (nodup_finRange NBUF) (fun i _ => h.all i)
  simp at h1 h2
  omega

theorem Lru.scan (h : c.Lru L) (P : Bid → Bool) :
    scanUntil c.prev .head (onBuf P) (NBUF + 1) (c.prev .tail) = some ((L.reverse.find? P).map .buf) := by
  rw [scanUntil_eq (onBuf P) _ h.linked (by simp) (by rw [length_map, h.length]), ← map_reverse, find?_map]
  rfl

/-! ## The hash chains -/

/-- The hash chains are the lists `C h`, and no buffer is in two of them. -/
structure Chains (c : Cache) (C : Fin HASH_SIZE → List Bid) : Prop where
  chain : ∀ h, Chain c.hashNext (c.hash h) (C h)
  nodup : ∀ h, (C h).Nodup
  disjoint : ∀ h h' i, i ∈ C h → i ∈ C h' → h = h'

variable {C : Fin HASH_SIZE → List Bid}

theorem Chains.congr (h : c.Chains C) (hn : c'.hashNext = c.hashNext) (hh : c'.hash = c.hash) : c'.Chains C :=
  ⟨fun k => by rw [hn, hh]; exact h.chain k, h.nodup, h.disjoint⟩

theorem Chains.length_le (h : c.Chains C) (k : Fin HASH_SIZE) : (C k).length ≤ NBUF := by
  have := (h.nodup k).length_le_card
  simpa using this

theorem Chains.lookup (h : c.Chains C) (dev blockno : UInt32) : c.hashLookup dev blockno =
      some ((C (hashOf dev blockno)).find? (fun i => (c.bufs i).dev == dev && (c.bufs i).blockno == blockno)) :=
  scan_eq _ (h.chain _) (h.length_le _)

variable {k : Fin HASH_SIZE}

theorem Chains.remove (h : c.Chains C) (hk : hashOf (c.bufs i).dev (c.bufs i).blockno = k) (hi : i ∈ C k) :
    ∃ hash hashNext, c.hashRemove i = some { c with hash := hash, hashNext := hashNext } ∧
      ({ c with hash := hash, hashNext := hashNext } : Cache).Chains (update C k ((C k).erase i)) := by
  obtain ⟨l1, l2, hni, heq, herase⟩ := exists_erase_eq hi
  have hch := h.chain k
  have hnd := h.nodup k
  have hlen := h.length_le k
  rw [heq] at hch hnd hlen
  have hloc : findLoc c.hashNext i NBUF none (c.hash k) = some (some l1.getLast?) := by
    rw [findLoc_eq hch hni (by rw [length_append, length_cons] at hlen; omega), Option.or_none]
  have hun := hch.unlink hnd
  refine ⟨update c.hash k (setLoc c.hashNext (c.hash k) l1.getLast? (c.hashNext i)).1,
    (setLoc c.hashNext (c.hash k) l1.getLast? (c.hashNext i)).2, by unfold hashRemove; simp only [hk, hloc], ?_, ?_, ?_⟩
  · intro k'
    by_cases hkk : k' = k
    · subst hkk
      simp only [update_self]
      rw [herase]
      exact hun
    simp only [update_of_ne hkk]
    refine (h.chain k').congr (fun j hj => ?_)
    -- only a link of the chain `k` has changed
    cases hlast : l1.getLast? with
    | none => rfl
    | some x =>
      have hx : x ∈ C k := by rw [heq]; exact mem_append_left _ (mem_of_getLast? hlast)
      exact update_of_ne (fun (hjx : j = x) => hkk (h.disjoint k' k j hj (hjx ▸ hx))) _ _
  · intro k'
    by_cases hkk : k' = k
    · subst hkk; rw [update_self]; exact (h.nodup _).erase i
    · rw [update_of_ne hkk]; exact h.nodup k'
  · have hsub : ∀ k' j, j ∈ update C k ((C k).erase i) k' → j ∈ C k' := by
      intro k' j hj
      by_cases hkk : k' = k
      · subst hkk; rw [update_self] at hj; exact mem_of_mem_erase hj
      · rw [update_of_ne hkk] at hj; exact hj
    exact fun k1 k2 j h1 h2 => h.disjoint k1 k2 j (hsub k1 j h1) (hsub k2 j h2)

theorem Chains.insert (h : c.Chains C) (hi : ∀ k, i ∉ C k)
 (hk : hashOf (c.bufs i).dev (c.bufs i).blockno = k) : (c.hashInsert i).Chains (update C k (i :: C k)) := by
  unfold hashInsert
  simp only [hk]
  refine ⟨fun k' => ?_, fun k' => ?_, ?_⟩
  · by_cases hkk : k' = k
    · subst hkk
      simp only [update_self]
      exact (h.chain k').push (hi k')
    · simp only [update_of_ne hkk]
      exact (h.chain k').congr (fun j hj => update_of_ne (fun (hji : j = i) => hi k' (hji ▸ hj)) _ _)
  · by_cases hkk : k' = k
    · subst hkk; rw [update_self]; exact nodup_cons.2 ⟨hi k', h.nodup k'⟩
    · rw [update_of_ne hkk]; exact h.nodup k'
  · have hcases : ∀ k' j, j ∈ update C k (i :: C k) k' → (j = i ∧ k' = k) ∨ (j ≠ i ∧ j ∈ C k') := by
      intro k' j hj
      by_cases hkk : k' = k
      · subst hkk
        rw [update_self, mem_cons] at hj
        rcases hj with rfl | hj
        · exact .inl ⟨rfl, rfl⟩
        · exact .inr ⟨fun hji => hi k' (hji ▸ hj), hj⟩
      · rw [update_of_ne hkk] at hj
        exact .inr ⟨fun hji => hi k' (hji ▸ hj), hj⟩
    intro k1 k2 j h1 h2
    rcases hcases k1 j h1 with ⟨rfl, rfl⟩ | ⟨hne, h1⟩
    · rcases hcases k2 j h2 with ⟨-, rfl⟩ | ⟨hne, -⟩
      · rfl
      · exact absurd rfl hne
    · rcases hcases k2 j h2 with ⟨rfl, -⟩ | ⟨-, h2⟩
      · exact absurd rfl hne
      · exact h.disjoint k1 k2 j h1 h2

/-! ## From `buf_init` -/

theorem initBuf_linked (h : Doubly c.next c.prev .head (L.map .buf) .tail) (hnd : L.Nodup)
    (hi : i ∉ L) : Doubly (c.initBuf i).next (c.initBuf i).prev .head ((i :: L).map .buf) .tail :=
  lruInsertHead_linked (c := { c.setBuf i { c.bufs i with valid := false, dirty := false, busy := false, dev := 0, blockno := 0 } with
    hashNext := update c.hashNext i none }) h hnd hi

theorem initBuf_frame (c : Cache) (i : Bid) : (c.initBuf i).disk = c.disk ∧
    (c.initBuf i).bufs = update c.bufs i { c.bufs i with valid := false, dirty := false, busy := false, dev := 0, blockno := 0 } := by
  obtain ⟨h1, -, -, h4⟩ := lruInsertHead_frame
    { c.setBuf i { c.bufs i with valid := false, dirty := false, busy := false, dev := 0, blockno := 0 } with
      hashNext := update c.hashNext i none } i
  exact ⟨h4, h1⟩

theorem initBufs (l : List Bid) : ∀ (c : Cache) (L : List Bid), Doubly c.next c.prev .head (L.map .buf) .tail → (l.reverse ++ L).Nodup →
    let r := l.foldl initBuf c
    Doubly r.next r.prev .head ((l.reverse ++ L).map .buf) .tail ∧
    r.disk = c.disk ∧ ∀ i, (i ∈ l ∨ ((c.bufs i).valid = false ∧ (c.bufs i).dirty = false ∧ (c.bufs i).busy = false)) →
      (r.bufs i).valid = false ∧ (r.bufs i).dirty = false ∧ (r.bufs i).busy = false := by
  induction l with
  | nil => exact fun c L h _ => ⟨h, rfl, fun i hi => hi.resolve_left (by simp)⟩
  | cons a l ih =>
    intro c L h hnd
    have heq : (a :: l).reverse ++ L = l.reverse ++ (a :: L) := by simp
    rw [heq] at hnd ⊢
    have haL := (nodup_append.1 hnd).2.1
    obtain ⟨f1, f2⟩ := initBuf_frame c a
    obtain ⟨h1, h2, h3⟩ := ih (c.initBuf a) (a :: L)
      (initBuf_linked h (nodup_cons.1 haL).2 (nodup_cons.1 haL).1) hnd
    rw [foldl_cons]
    refine ⟨h1, h2.trans f1, fun i hi => h3 i ?_⟩
    rw [f2]
    by_cases hia : i = a
    · subst hia; rw [update_self]; exact .inr ⟨rfl, rfl, rfl⟩
    · rw [update_of_ne hia]
      exact hi.imp_left (fun hm => (mem_cons.1 hm).resolve_left hia)

theorem bufInit_spec (c : Cache) : c.bufInit.Lru (finRange NBUF).reverse ∧ c.bufInit.hash = (fun _ => none) ∧
    c.bufInit.disk = c.disk ∧ ∀ i, (c.bufInit.bufs i).valid = false ∧ (c.bufInit.bufs i).dirty = false ∧
      (c.bufInit.bufs i).busy = false := by
  have hstart : Doubly (update (update c.next .head (some .tail)) .tail none)
      (update (update c.prev .head none) .tail (some .head)) Node.head (([] : List Bid).map .buf) Node.tail :=
    ⟨by rw [update_of_ne (by decide), update_self], update_self ..⟩
  obtain ⟨h1, h2, h3⟩ := initBufs (finRange NBUF) { c with
    next := update (update c.next .head (some .tail)) .tail none
    prev := update (update c.prev .head none) .tail (some .head) } [] hstart
    (by rw [append_nil, nodup_reverse]; exact nodup_finRange _)
  rw [append_nil] at h1
  exact ⟨⟨h1, nodup_reverse.2 (nodup_finRange _), fun i => mem_reverse.2 (mem_finRange i)⟩, rfl, h2,
    fun i => h3 i (.inl (mem_finRange i))⟩

end Cache
end Noxis
