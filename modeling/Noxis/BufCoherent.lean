import Noxis.BufIo
/-!
# BufCoherent — callers of the buffer cache over devices that do not fail

`Coherent` is the invariant of a cache whose callers keep the rules (`Sys.Allowed`): `Sys.Good.step` says that they keep it,
and `buffer_cache_coherent` what they see.
-/
namespace Noxis

open Option Function List

open Linked

namespace Cache

/-- The LRU list is `L` and the hash chains are `C`; each chain has the valid buffers of its hash value, no block is in two
buffers, and a buffer its holder has not touched agrees with the device.  `T` marks the buffers that were modified
and not written yet. -/
structure Coherent (c : Cache) (T : Bid → Bool) (L : List Bid) (C : Fin HASH_SIZE → List Bid) : Prop where
  lru : c.Lru L
  chains : c.Chains C
  mem : ∀ k i, i ∈ C k ↔ (c.bufs i).valid = true ∧ hashOf (c.bufs i).dev (c.bufs i).blockno = k
  keys : ∀ i j, (c.bufs i).valid = true → (c.bufs j).valid = true → (c.bufs i).dev = (c.bufs j).dev →
    (c.bufs i).blockno = (c.bufs j).blockno → i = j
  busy : ∀ i, (c.bufs i).busy = true → (c.bufs i).valid = true
  touched : ∀ i, T i = true → (c.bufs i).busy = true
  clean : ∀ i, T i = false → (c.bufs i).dirty = false ∧
    ((c.bufs i).valid = true → (c.bufs i).data = c.disk (c.bufs i).dev (c.bufs i).blockno)

namespace Coherent

variable {c : Cache} {T : Bid → Bool} {L : List Bid} {C : Fin HASH_SIZE → List Bid}

section
variable (h : c.Coherent T L C)
include h

theorem wired : c.Wired L C :=
  ⟨h.lru, h.chains, fun k i hi => ((h.mem k i).1 hi).2, fun i hv => (h.mem _ i).2 ⟨hv, rfl⟩⟩

theorem lookup (dev blockno : UInt32) :
    (∃ i, c.hashLookup dev blockno = some (some i) ∧ (c.bufs i).valid = true ∧ (c.bufs i).dev = dev ∧
      (c.bufs i).blockno = blockno) ∨ (c.hashLookup dev blockno = some none ∧
      ∀ i, (c.bufs i).valid = true → ¬ ((c.bufs i).dev = dev ∧ (c.bufs i).blockno = blockno)) := by
  rcases h.wired.lookup dev blockno with ⟨i, hl, hi, hk⟩ | ⟨hl, hnew⟩
  · exact .inl ⟨i, hl, ((h.mem _ i).1 hi).1, hk⟩
  · exact .inr ⟨hl, fun i hv => hnew _ i (h.wired.linked i hv)⟩

/-- **What `_evict` picks**: a buffer that is not busy, and none only when all are; nothing is written out, because a
buffer that is not busy is not dirty. -/
theorem evict : (∃ i, c.evict = some (c, some i) ∧ (c.bufs i).busy = false) ∨
    (c.evict = some (c, none) ∧ ∀ i, (c.bufs i).busy = true) := by
  rcases evictIo_cases h.lru .ok with ⟨i, -, he, hb⟩ | ⟨-, he⟩
  · have hd : (c.bufs i).dirty = false := by
      cases ht : T i with
      | false => exact (h.clean i ht).1
      | true => rw [h.touched i ht] at hb; cases hb
    refine .inl ⟨i, he.trans ?_, hb⟩
    unfold Cache.bwriteIo
    rw [hd]
    rfl
  · exact .inr he

/-- **One buffer changes**: what the invariant asks of its new contents `b`. -/
theorem update {c' : Cache} {T' : Bid → Bool} {L' : List Bid} {C' : Fin HASH_SIZE → List Bid} {i : Bid}
    {b : Buf} (hw : c'.Wired L' C') (hvalid : ∀ k j, j ∈ C' k → (c'.bufs j).valid = true) (hb : c'.bufs = update c.bufs i b)
    (hdisk : ∀ j, j ≠ i → (c.bufs j).valid = true →
      c'.disk (c.bufs j).dev (c.bufs j).blockno = c.disk (c.bufs j).dev (c.bufs j).blockno) (hT : ∀ j, j ≠ i → T' j = T j)
    (hkey : b.valid = true → ∀ j, j ≠ i → (c.bufs j).valid = true → ¬ ((c.bufs j).dev = b.dev ∧ (c.bufs j).blockno = b.blockno))
    (hbusy : b.busy = true → b.valid = true) (ht : T' i = true → b.busy = true)
    (hclean : T' i = false → b.dirty = false ∧ (b.valid = true → b.data = c'.disk b.dev b.blockno)) :
    c'.Coherent T' L' C' := by
  have hself : c'.bufs i = b := by rw [hb, update_self]
  have hoth : ∀ j, j ≠ i → c'.bufs j = c.bufs j := fun j hj => by rw [hb, update_of_ne hj]
  refine ⟨hw.lru, hw.chains, fun k j => ⟨fun hj => ⟨hvalid k j hj, hw.home k j hj⟩, fun ⟨hv, hk⟩ => hk ▸ hw.linked j hv⟩,
    fun j j' hv hv' hd hbl => ?_, fun j hj => ?_, fun j hj => ?_, fun j hj => ?_⟩
  · by_cases hji : j = i <;> by_cases hji' : j' = i
    · rw [hji, hji']
    · rw [hji, hself] at hv hd hbl
      rw [hoth j' hji'] at hv' hd hbl
      exact absurd ⟨hd.symm, hbl.symm⟩ (hkey hv j' hji' hv')
    · rw [hji', hself] at hv' hd hbl
      rw [hoth j hji] at hv hd hbl
      exact absurd ⟨hd, hbl⟩ (hkey hv' j hji hv)
    · rw [hoth j hji] at hv hd hbl
      rw [hoth j' hji'] at hv' hd hbl
      exact h.keys j j' hv hv' hd hbl
  · by_cases hji : j = i
    · rw [hji, hself] at hj ⊢; exact hbusy hj
    · rw [hoth j hji] at hj ⊢; exact h.busy j hj
  · by_cases hji : j = i
    · rw [hji] at hj ⊢; rw [hself]; exact ht hj
    · rw [hoth j hji]; exact h.touched j (hT j hji ▸ hj)
  · by_cases hji : j = i
    · rw [hji] at hj ⊢; rw [hself]; exact hclean hj
    · rw [hoth j hji]
      obtain ⟨h1, h2⟩ := h.clean j (hT j hji ▸ hj)
      exact ⟨h1, fun hv => (h2 hv).trans (hdisk j hji hv).symm⟩

theorem setBuf {i : Bid} {b : Buf} {T' : Bid → Bool} (hdev : b.dev = (c.bufs i).dev)
    (hblk : b.blockno = (c.bufs i).blockno) (hvalid : b.valid = (c.bufs i).valid) (hT : ∀ j, j ≠ i → T' j = T j)
    (hbusy : b.busy = true → b.valid = true) (ht : T' i = true → b.busy = true)
    (hclean : T' i = false → b.dirty = false ∧ (b.valid = true → b.data = c.disk b.dev b.blockno)) :
    (c.setBuf i b).Coherent T' L C := by
  refine h.update (h.wired.setBuf hdev hblk (fun hv => hvalid ▸ hv)) (fun k j hj => ?_) rfl (fun _ _ _ => rfl) hT
    (fun hv j hj hvj hk => hj (h.keys j i hvj (hvalid ▸ hv) (hk.1.trans hdev) (hk.2.trans hblk))) hbusy ht hclean
  have hv := ((h.mem k j).1 hj).1
  by_cases hji : j = i
  · subst hji; exact (congrArg Buf.valid (update_self ..)).trans (hvalid.trans hv)
  · exact (congrArg Buf.valid (update_of_ne hji ..)).trans hv

theorem hit {i : Bid} (hv : (c.bufs i).valid = true) :
    (c.hit i).Coherent T (i :: L.erase i) C ∧ (c.hit i).bufs i = { c.bufs i with busy := true } ∧ (c.hit i).disk = c.disk := by
  obtain ⟨hw, hdisk, hb⟩ := h.wired.hitIo .ok (h.wired.linked i hv)
  rw [hv] at hb
  have hb' : (c.hit i).bufs = Function.update c.bufs i { c.bufs i with busy := true } := hb
  have hself : (c.hit i).bufs i = { c.bufs i with busy := true } := by rw [hb', update_self]
  refine ⟨h.update hw (fun k j hj => ?_) hb' (fun _ _ _ => by rw [show (c.hit i).disk = c.disk from hdisk]) (fun _ _ => rfl)
    (fun _ j hj hvj hk => hj (h.keys j i hvj hv hk.1 hk.2)) (fun _ => hv) (fun _ => rfl) (fun ht => ?_), hself, hdisk⟩
  · by_cases hji : j = i
    · rw [hji]; exact (congrArg Buf.valid hself).trans hv
    · exact (congrArg Buf.valid ((congrFun hb' j).trans (update_of_ne hji ..))).trans ((h.mem k j).1 hj).1
  · rw [show (c.hit i).disk = c.disk from hdisk]
    exact h.clean i ht

/-- **A miss** gives the block a buffer that was not busy. -/
theorem reuse {i : Bid} (hfree : (c.bufs i).busy = false) {dev blockno : UInt32}
    (hnew : ∀ j, (c.bufs j).valid = true → ¬ ((c.bufs j).dev = dev ∧ (c.bufs j).blockno = blockno)) :
    ∃ c' C', c.reuse i dev blockno = some c' ∧ c'.Coherent T (i :: L.erase i) C' ∧
      c'.bufs i = ⟨dev, blockno, true, false, true, c.disk dev blockno⟩ ∧ c'.disk = c.disk := by
  have hfree' : (c.bufs i).valid = true ∨ ∀ k, i ∉ C k := by
    cases hv : (c.bufs i).valid with
    | true => exact .inl rfl
    | false => exact .inr (fun k hk => by rw [((h.mem k i).1 hk).1] at hv; cases hv)
  obtain ⟨c', C', heq, hw, hb, hdisk, hmem⟩ := h.wired.takeOver hfree' ⟨dev, blockno, true, false, true, c.disk dev blockno⟩
  rw [takeOver_reuse] at heq
  refine ⟨c', C', heq, h.update hw (fun k j hj => ?_) hb (fun _ _ _ => by rw [hdisk]) (fun _ _ => rfl) (fun _ j _ hvj => hnew j hvj)
    (fun _ => rfl) (fun _ => rfl) (fun _ => ⟨rfl, fun _ => by rw [hdisk]⟩), by rw [hb, update_self], hdisk⟩
  rw [hb]
  rcases (hmem k j).1 hj with ⟨rfl, -⟩ | ⟨hne, hj⟩
  · rw [update_self]
  · rw [update_of_ne hne]; exact ((h.mem k j).1 hj).1

/-- **`bwrite`** of a marked buffer: the device has its data. -/
theorem write {i : Bid} (hd : (c.bufs i).dirty = true) : (c.bwrite i).Coherent (Function.update T i false) L C ∧
    (c.bwrite i).disk = writeBlock c.disk (c.bufs i).dev (c.bufs i).blockno (c.bufs i).data := by
  have hv : (c.bufs i).valid = true := by
    cases ht : T i with
    | false => rw [(h.clean i ht).1] at hd; cases hd
    | true => exact h.busy i (h.touched i ht)
  have hw : (c.bwrite i).Wired L C := h.wired.bwriteIo .ok i
  have hbw : c.bwrite i = { c with disk := writeBlock c.disk (c.bufs i).dev (c.bufs i).blockno (c.bufs i).data
                                   bufs := Function.update c.bufs i { c.bufs i with dirty := false } } := by
    unfold Cache.bwrite
    rw [if_neg (by simp [hd])]
  rw [hbw] at hw ⊢
  refine ⟨h.update hw (fun k j hj => ?_) rfl (fun j hj hvj => ?_) (fun j hj => update_of_ne hj ..)
    (fun _ j hj hvj hk => hj (h.keys j i hvj hv hk.1 hk.2)) (h.busy i)
    (fun ht => absurd ((update_self ..).symm.trans ht) (by decide)) (fun _ => ⟨rfl, fun _ => ?_⟩), rfl⟩
  · have hvj := ((h.mem k j).1 hj).1
    dsimp only
    by_cases hji : j = i
    · rw [hji] at hvj ⊢; rw [update_self]; exact hvj
    · rw [update_of_ne hji]; exact hvj
  · exact (update_pair ..).trans (if_neg (fun hk => hj (h.keys j i hvj hv hk.1 hk.2)))
  · exact ((update_pair ..).trans (if_pos ⟨rfl, rfl⟩)).symm

/-- **`bread`** of a block nobody holds. -/
theorem bread {dev blockno : UInt32}
    (hheld : ∀ i, (c.bufs i).busy = true → ¬ ((c.bufs i).dev = dev ∧ (c.bufs i).blockno = blockno)) :
    ∃ c' r L' C', c.bread dev blockno = some (c', r) ∧ c'.Coherent T L' C' ∧ c'.disk = c.disk ∧
      (r = none → ∀ i, (c.bufs i).busy = true) ∧
      ∀ i, r = some i → c'.bufs i = ⟨dev, blockno, true, false, true, c.disk dev blockno⟩ := by
  unfold Cache.bread
  rcases h.lookup dev blockno with ⟨i, hlook, hv, hd, hb⟩ | ⟨hlook, hnew⟩
  · obtain ⟨h1, h2, h3⟩ := h.hit hv
    refine ⟨_, _, _, _, by rw [hlook], h1, h3, fun hx => (by cases hx), fun j hj => ?_⟩
    obtain rfl := some.inj hj
    have hT : T i = false := by
      cases ht : T i with
      | false => rfl
      | true => exact absurd ⟨hd, hb⟩ (hheld i (h.touched i ht))
    obtain ⟨hdirty, hdata⟩ := h.clean i hT
    rw [h2]
    simp only [hd, hb, hv, hdirty, hdata hv]
  · rw [hlook]
    rcases h.evict with ⟨i, hev, hfree⟩ | ⟨hev, hall⟩
    · obtain ⟨c', C', heq, h1, h2, h3⟩ := h.reuse hfree hnew
      refine ⟨c', some i, _, C', by simp only [hev, heq], h1, h3, fun hx => (by cases hx), fun j hj => ?_⟩
      obtain rfl := some.inj hj
      exact h2
    · exact ⟨c, none, L, C, by simp only [hev], h, rfl, fun _ => hall, fun i hi => by cases hi⟩

end

end Coherent

theorem bufInit_coherent (c : Cache) : c.bufInit.Coherent (fun _ => false) (finRange NBUF).reverse (fun _ => []) ∧
    c.bufInit.disk = c.disk := by
  have hw := bufInit_wired c
  obtain ⟨-, -, hdisk, hflags⟩ := bufInit_spec c
  have hv : ∀ i, (c.bufInit.bufs i).valid ≠ true := fun i hv => by rw [(hflags i).1] at hv; cases hv
  refine ⟨⟨hw.lru, hw.chains, fun k i => ⟨fun hi => (by cases hi), fun hi => absurd hi.1 (hv i)⟩, fun i _ hi => absurd hi (hv i),
    fun i hb => ?_, fun _ hi => (by cases hi), fun i _ => ⟨(hflags i).2.1, fun hi => absurd hi (hv i)⟩⟩, hdisk⟩
  rw [(hflags i).2.2] at hb
  cases hb

end Cache

/-! ## Callers -/

/-- What callers do: read a block, fill a buffer they hold, mark it, write it, release it. -/
inductive BufOp where
  | bread (dev blockno : UInt32)
  | fill (i : Bid) (data : Block)
  | setDirty (i : Bid)
  | bwrite (i : Bid)
  | brelse (i : Bid)

/-- The cache with two history variables: `touched`, the buffers modified or marked and not written since, and `last`, the
data last written to each block.  `hung` is a loop that does not end. -/
structure Sys where
  cache : Cache
  touched : Bid → Bool
  last : UInt32 → UInt32 → Block
  hung : Bool

namespace Sys

open Cache

def step (s : Sys) : BufOp → Sys × Option Bid
  | .bread dev blockno =>
    match s.cache.bread dev blockno with
    | none => ({ s with hung := true }, none)
    | some (c, r) => ({ s with cache := c }, r)
  | .fill i data =>
    ({ s with cache := s.cache.setBuf i { s.cache.bufs i with data := data }, touched := update s.touched i true }, none)
  | .setDirty i =>
    ({ s with cache := s.cache.setBuf i { s.cache.bufs i with dirty := true }, touched := update s.touched i true }, none)
  | .bwrite i =>
    if (s.cache.bufs i).dirty then
      ({ s with cache := s.cache.bwrite i, touched := update s.touched i false
                last := writeBlock s.last (s.cache.bufs i).dev (s.cache.bufs i).blockno (s.cache.bufs i).data }, none)
    else ({ s with cache := s.cache.bwrite i }, none)
  | .brelse i => ({ s with cache := s.cache.brelse i }, none)

/-- The rules callers keep: a block is read by nobody who holds it, a buffer is modified or marked only while it is held,
and what was modified has been marked and written when it is released. -/
def Allowed (s : Sys) : BufOp → Prop
  | .bread dev blockno => ∀ i, (s.cache.bufs i).busy = true →
      ¬ ((s.cache.bufs i).dev = dev ∧ (s.cache.bufs i).blockno = blockno)
  | .fill i _ => (s.cache.bufs i).busy = true
  | .setDirty i => (s.cache.bufs i).busy = true
  | .bwrite _ => True
  | .brelse i => s.touched i = false

def init (c : Cache) : Sys := ⟨c.bufInit, fun _ => false, c.disk, false⟩

def Good (s : Sys) : Prop := s.hung = false ∧ s.cache.disk = s.last ∧ ∃ L C, s.cache.Coherent s.touched L C

theorem Good.init (c : Cache) : (init c).Good :=
  ⟨rfl, (bufInit_coherent c).2, _, _, (bufInit_coherent c).1⟩

theorem Good.step {s : Sys} (h : s.Good) (op : BufOp) (hop : s.Allowed op) : (s.step op).1.Good := by
  obtain ⟨hhung, hdisk, L, C, hc⟩ := h
  cases op with
  | bread dev blockno =>
    obtain ⟨c', r, L', C', heq, hc', hd, -, -⟩ := hc.bread hop
    unfold Sys.step
    simp only [heq]
    exact ⟨hhung, hd.trans hdisk, L', C', hc'⟩
  | fill i data =>
    refine ⟨hhung, hdisk, L, C, hc.setBuf rfl rfl rfl (fun j hj => update_of_ne hj ..) (hc.busy i) (fun _ => hop) (fun ht => ?_)⟩
    exact absurd ((update_self ..).symm.trans ht) (by decide)
  | setDirty i =>
    refine ⟨hhung, hdisk, L, C, hc.setBuf rfl rfl rfl (fun j hj => update_of_ne hj ..) (hc.busy i) (fun _ => hop) (fun ht => ?_)⟩
    exact absurd ((update_self ..).symm.trans ht) (by decide)
  | bwrite i =>
    unfold Sys.step
    by_cases hd : (s.cache.bufs i).dirty = true
    · obtain ⟨h1, h2⟩ := hc.write hd
      simp only [hd, if_true]
      exact ⟨hhung, by rw [h2, hdisk], L, C, h1⟩
    · have hbw : s.cache.bwrite i = s.cache := by unfold Cache.bwrite; rw [if_pos (by simpa using hd)]
      simp only [if_neg hd, hbw]
      exact ⟨hhung, hdisk, L, C, hc⟩
  | brelse i =>
    refine ⟨hhung, hdisk, L, C, hc.setBuf rfl rfl rfl (fun _ _ => rfl) (fun hb => (by cases hb)) (fun ht => ?_) (fun ht => hc.clean i ht)⟩
    rw [show (s.step (.brelse i)).1.touched i = false from hop] at ht
    cases ht

/-- **Buffer-cache coherence.**  After any sequence of allowed operations from `buf_init`: every loop has ended; every valid
buffer is once in the hash chain of its block and in no other; the LRU list has each of the buffers once, its links
consistent in both directions; no block is in two valid buffers; and a `bread` returns a buffer with the data last written
to the block, or none when all buffers are busy. -/
theorem buffer_cache_coherent (c : Cache) (ops : List BufOp)
    (hops : ∀ pre op post, ops = pre ++ op :: post → (run Sys.step (init c) pre).1.Allowed op) :
    (run Sys.step (init c) ops).1.hung = false ∧ (∃ C : Fin HASH_SIZE → List Bid,
      (∀ k, Chain (run Sys.step (init c) ops).1.cache.hashNext ((run Sys.step (init c) ops).1.cache.hash k) (C k)) ∧
      ∀ i, ((run Sys.step (init c) ops).1.cache.bufs i).valid = true → ∀ k, (C k).count i =
        if k = hashOf ((run Sys.step (init c) ops).1.cache.bufs i).dev ((run Sys.step (init c) ops).1.cache.bufs i).blockno
        then 1 else 0) ∧
    (∃ L : List Bid, Doubly (run Sys.step (init c) ops).1.cache.next (run Sys.step (init c) ops).1.cache.prev .head
      (L.map .buf) .tail ∧ ∀ i, L.count i = 1) ∧ (∀ i j, ((run Sys.step (init c) ops).1.cache.bufs i).valid = true →
      ((run Sys.step (init c) ops).1.cache.bufs j).valid = true →
      ((run Sys.step (init c) ops).1.cache.bufs i).dev = ((run Sys.step (init c) ops).1.cache.bufs j).dev →
      ((run Sys.step (init c) ops).1.cache.bufs i).blockno = ((run Sys.step (init c) ops).1.cache.bufs j).blockno → i = j) ∧
    ∀ dev blockno, (run Sys.step (init c) ops).1.Allowed (.bread dev blockno) →
      ∃ c' r, (run Sys.step (init c) ops).1.cache.bread dev blockno = some (c', r) ∧
        (∀ i, r = some i → (c'.bufs i).dev = dev ∧ (c'.bufs i).blockno = blockno ∧ (c'.bufs i).busy = true ∧
          (c'.bufs i).data = (run Sys.step (init c) ops).1.last dev blockno) ∧
        (r = none → ∀ i, ((run Sys.step (init c) ops).1.cache.bufs i).busy = true) := by
  have hgood : (run Sys.step (init c) ops).1.Good :=
    run_inv (P := Good) (C := Allowed) (fun s op h hop => h.step op hop) ops (init c) (Good.init c) hops
  generalize (run Sys.step (init c) ops).1 = s at *
  obtain ⟨hhung, hdisk, L, C, hc⟩ := hgood
  refine ⟨hhung, ⟨C, hc.chains.chain, fun i hv k => ?_⟩, ⟨L, hc.lru.linked, fun i => ?_⟩, hc.keys, fun dev blockno hop => ?_⟩
  · split
    · next hk => exact count_eq_one_of_mem (hc.chains.nodup k) ((hc.mem k i).2 ⟨hv, hk.symm⟩)
    · next hk => exact count_eq_zero.2 (fun hi => hk ((hc.mem k i).1 hi).2.symm)
  · exact count_eq_one_of_mem hc.lru.nodup (hc.lru.all i)
  · obtain ⟨c', r, L', C', heq, -, -, hnone, hsome⟩ := hc.bread hop
    refine ⟨c', r, heq, fun i hi => ?_, hnone⟩
    rw [hsome i hi, ← hdisk]
    exact ⟨rfl, rfl, rfl, rfl⟩

def zeroCache : Cache := ⟨fun _ => ⟨0, 0, false, false, false, fun _ => 0⟩, fun _ => none, fun _ => none, fun _ => none,
  fun _ => none, fun _ _ _ => 0⟩

theorem buffer_cache_coherent_one_bread : (run Sys.step (init zeroCache) [.bread 0 5]).1.hung = false ∧
    ∃ L : List Bid, Doubly (run Sys.step (init zeroCache) [.bread 0 5]).1.cache.next
      (run Sys.step (init zeroCache) [.bread 0 5]).1.cache.prev .head (L.map .buf) .tail ∧ ∀ i, L.count i = 1 := by
  have h := buffer_cache_coherent zeroCache [.bread 0 5] (by
    refine splits_cons.2 ⟨?_, splits_nil⟩
    intro i hb
    have hc := (bufInit_coherent zeroCache).1
    have := (hc.mem _ i).2 ⟨hc.busy i hb, rfl⟩
    cases this)
  exact ⟨h.1, h.2.2.1⟩

end Sys

end Noxis
