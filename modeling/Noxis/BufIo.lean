import Noxis.BufCache
/-!
# BufIo — the buffer cache over devices that fail, and `balloc`

The functions of `BufCache` with the answers of `blk_rw` as arguments.  A failed write leaves some block on the device, a
failed read some bytes in the buffer.  With answers that are all `ok` they are the functions of `BufCache`
(`breadIo_ok`, `bwriteIo_ok`).  `takeOver` is the part that `bread` and `balloc` share; `Wired.takeOver` says what it makes of
the chains when the buffer is unlinked first or was not linked.
-/
namespace Noxis

open List Function
namespace Cache

open Linked

/-- What `blk_rw` answers: done, or failed with what it has left behind. -/
inductive Rw where
  | ok
  | failed (left : Block)

def bwriteIo (c : Cache) (a : Rw) (i : Bid) : Cache :=
  if !(c.bufs i).dirty then c
  else
    let b := c.bufs i
    match a with
    | .ok => { c with disk := writeBlock c.disk b.dev b.blockno b.data, bufs := update c.bufs i { b with dirty := false } }
    | .failed left => { c with disk := writeBlock c.disk b.dev b.blockno left }

def evictIo (c : Cache) (a : Rw) : Option (Cache × Option Bid) :=
  match scanUntil c.prev .head (onBuf (fun i => !(c.bufs i).busy && !(c.bufs i).dirty)) (NBUF + 1) (c.prev .tail) with
  | none => none
  | some (some p) => some (c, nodeBid p)
  | some none =>
    match scanUntil c.prev .head (onBuf (fun i => !(c.bufs i).busy)) (NBUF + 1) (c.prev .tail) with
    | none => none
    | some none => some (c, none)
    | some (some p) =>
      match nodeBid p with
      | some i => some (c.bwriteIo a i, some i)
      | none => some (c, none)

def readIo (c : Cache) (a : Rw) (dev blockno : UInt32) : Block :=
  match a with
  | .ok => c.disk dev blockno
  | .failed left => left

def hitIo (c : Cache) (a : Rw) (i : Bid) : Cache :=
  let b := c.bufs i
  let b := if !b.valid then { b with data := c.readIo a b.dev b.blockno, valid := true } else b
  let c := ((c.setBuf i b).lruRemove i).lruInsertHead i
  c.setBuf i { c.bufs i with busy := true }

/-- The buffer `i` becomes `b`: it leaves its chain if it is valid, and enters the one of its new block. -/
def takeOver (c : Cache) (i : Bid) (b : Buf) : Option Cache :=
  match if (c.bufs i).valid then c.hashRemove i else some c with
  | none => none
  | some c => some ((((c.setBuf i b).lruRemove i).hashInsert i).lruInsertHead i)

def breadIo (c : Cache) (dev blockno : UInt32) (w r : Rw) : Option (Cache × Option Bid) :=
  match c.hashLookup dev blockno with
  | none => none
  | some (some i) => some (c.hitIo r i, some i)
  | some none =>
    match c.evictIo w with
    | none => none
    | some (c, none) => some (c, none)
    | some (c, some i) =>
      match c.takeOver i ⟨dev, blockno, true, false, true, c.readIo r dev blockno⟩ with
      | none => none
      | some c => some (c, some i)

/-- The loop of `balloc` that writes out the dirty buffers that are not busy. -/
def flushIo (c : Cache) (a : Bid → Rw) : Cache :=
  (List.finRange NBUF).foldl (fun c i => if !(c.bufs i).busy && (c.bufs i).dirty then c.bwriteIo (a i) i else c) c

def ballocIo (c : Cache) (dev blockno : UInt32) (w : Rw) (flush : Bid → Rw) (w' : Rw) : Option (Cache × Option Bid) :=
  match (match c.evictIo w with
    | some (c, none) => (c.flushIo flush).evictIo w'
    | r => r) with
  | none => none
  | some (c, none) => some (c, none)
  | some (c, some i) =>
    match c.takeOver i ⟨dev, blockno, false, false, true, fun _ => 0⟩ with
    | none => none
    | some c => some (c, some i)

theorem update_pair {β : Type} (f : UInt32 → UInt32 → β) (a b a' b' : UInt32) (x : β) :
    update f a (update (f a) b x) a' b' = if a' = a ∧ b' = b then x else f a' b' := by
  by_cases ha : a' = a
  · subst ha
    rw [update_self]
    by_cases hb : b' = b
    · subst hb; rw [update_self, if_pos ⟨rfl, rfl⟩]
    · rw [update_of_ne hb, if_neg (fun h => hb h.2)]
  · rw [update_of_ne ha, if_neg (fun h => ha h.1)]

/-! ## Devices that never fail -/

theorem bwriteIo_ok (c : Cache) (i : Bid) : c.bwriteIo .ok i = c.bwrite i := rfl

theorem evictIo_ok (c : Cache) : c.evictIo .ok = c.evict := rfl

variable {c : Cache} {i : Bid}

theorem hashRemove_disk {c' : Cache} (h : c.hashRemove i = some c') : c'.disk = c.disk := by
  unfold hashRemove at h
  dsimp only at h
  split at h
  · cases h
  · cases h; rfl
  · cases h; rfl

theorem takeOver_reuse (c : Cache) (i : Bid) (dev blockno : UInt32) :
    c.takeOver i ⟨dev, blockno, true, false, true, c.disk dev blockno⟩ = c.reuse i dev blockno := by
  unfold takeOver reuse
  by_cases hv : (c.bufs i).valid = true
  · rw [if_pos hv]
    cases hr : c.hashRemove i with
    | none => rfl
    | some c' => simp only [hashRemove_disk hr]
  · rw [if_neg hv]

theorem breadIo_ok (c : Cache) (dev blockno : UInt32) : c.breadIo dev blockno .ok .ok = c.bread dev blockno := by
  unfold breadIo bread
  rw [evictIo_ok]
  cases c.hashLookup dev blockno with
  | none => rfl
  | some r =>
    cases r with
    | some i => rfl
    | none =>
      cases c.evict with
      | none => rfl
      | some p =>
        obtain ⟨c', r⟩ := p
        cases r with
        | none => rfl
        | some i =>
          simp only [← takeOver_reuse]
          rfl

/-! ## What each function does to the buffers -/

theorem bwriteIo_frame (c : Cache) (a : Rw) (i : Bid) :
    let r := c.bwriteIo a i
    r.next = c.next ∧ r.prev = c.prev ∧ r.hash = c.hash ∧ r.hashNext = c.hashNext ∧
    ∃ d, r.bufs = update c.bufs i { c.bufs i with dirty := d } := by
  unfold bwriteIo
  split
  · exact ⟨rfl, rfl, rfl, rfl, _, (update_eq_self i c.bufs).symm⟩
  · cases a with
    | ok => exact ⟨rfl, rfl, rfl, rfl, _, rfl⟩
    | failed left => exact ⟨rfl, rfl, rfl, rfl, _, (update_eq_self i c.bufs).symm⟩

def victim (c : Cache) : Option Bid := c.evict.bind Prod.snd

variable {L : List Bid}

/-- **What `_evict` picks**: a buffer that is not busy, written out when it is dirty; none only when all are busy. -/
theorem evictIo_cases (h : c.Lru L) (a : Rw) :
    (∃ i, c.victim = some i ∧ c.evictIo a = some (c.bwriteIo a i, some i) ∧ (c.bufs i).busy = false) ∨
    (c.victim = none ∧ c.evictIo a = some (c, none) ∧ ∀ i, (c.bufs i).busy = true) := by
  unfold victim evict evictIo
  rw [h.scan, h.scan]
  cases hf : L.reverse.find? (fun i => !(c.bufs i).busy && !(c.bufs i).dirty) with
  | some i =>
    have hk := find?_some hf
    simp only [Bool.and_eq_true, Bool.not_eq_true'] at hk
    refine .inl ⟨i, rfl, ?_, hk.1⟩
    unfold bwriteIo
    rw [if_pos (by rw [hk.2]; rfl)]
    rfl
  | none =>
    cases hg : L.reverse.find? (fun i => !(c.bufs i).busy) with
    | some i =>
      have hk := find?_some hg
      simp only [Bool.not_eq_true'] at hk
      exact .inl ⟨i, rfl, rfl, hk⟩
    | none =>
      refine .inr ⟨rfl, rfl, fun i => ?_⟩
      have := find?_eq_none.1 hg i (mem_reverse.2 (h.all i))
      simpa using this

theorem flushIo_busy (h : ∀ i, (c.bufs i).busy = true) (a : Bid → Rw) : c.flushIo a = c := by
  unfold flushIo
  induction finRange NBUF with
  | nil => rfl
  | cons i l ih =>
    rw [foldl_cons, h i]
    exact ih

theorem ballocIo_eq (h : c.Lru L) (dev blockno : UInt32) (w : Rw) (flush : Bid → Rw) (w' : Rw) :
    c.ballocIo dev blockno w flush w' = match c.victim with
      | none => some (c, none)
      | some i => ((c.bwriteIo w i).takeOver i ⟨dev, blockno, false, false, true, fun _ => 0⟩).map (·, some i) := by
  unfold ballocIo
  rcases evictIo_cases h w with ⟨i, hv, he, -⟩ | ⟨hv, he, hbusy⟩
  · rw [he, hv]
    dsimp only
    cases (c.bwriteIo w i).takeOver i ⟨dev, blockno, false, false, true, fun _ => 0⟩ <;> rfl
  rw [he, hv]
  dsimp only
  rw [flushIo_busy hbusy]
  rcases evictIo_cases h w' with ⟨i, hv', -, -⟩ | ⟨-, he', -⟩
  · rw [hv] at hv'; cases hv'
  · rw [he']

variable {dev blockno : UInt32}

theorem breadIo_miss (h : c.Lru L) (hm : c.hashLookup dev blockno = some none)
    (w r : Rw) : c.breadIo dev blockno w r = match c.victim with
      | none => some (c, none)
      | some i => ((c.bwriteIo w i).takeOver i ⟨dev, blockno, true, false, true,
          (c.bwriteIo w i).readIo r dev blockno⟩).map (·, some i) := by
  unfold breadIo
  rw [hm]
  rcases evictIo_cases h w with ⟨i, hv, he, -⟩ | ⟨hv, he, -⟩
  · rw [he, hv]
    dsimp only
    cases (c.bwriteIo w i).takeOver i ⟨dev, blockno, true, false, true, (c.bwriteIo w i).readIo r dev blockno⟩ <;> rfl
  · rw [he, hv]

theorem breadIo_hit (hh : c.hashLookup dev blockno = some (some i)) (w r : Rw) :
    c.breadIo dev blockno w r = some (c.hitIo r i, some i) := by
  unfold breadIo
  rw [hh]

/-! ## The links -/

/-- The LRU list is `L`, the hash chains are `C`; a linked buffer is in the chain of its block and a valid buffer is linked. -/
structure Wired (c : Cache) (L : List Bid) (C : Fin HASH_SIZE → List Bid) : Prop where
  lru : c.Lru L
  chains : c.Chains C
  home : ∀ k i, i ∈ C k → hashOf (c.bufs i).dev (c.bufs i).blockno = k
  linked : ∀ i, (c.bufs i).valid = true → i ∈ C (hashOf (c.bufs i).dev (c.bufs i).blockno)

namespace Wired

variable {c : Cache} {L : List Bid} {C : Fin HASH_SIZE → List Bid}

theorem congr (h : c.Wired L C) {c' : Cache} {L' : List Bid} (hlru : c'.Lru L') (hn : c'.hashNext = c.hashNext)
    (hh : c'.hash = c.hash) (hb : ∀ i, (c'.bufs i).dev = (c.bufs i).dev ∧ (c'.bufs i).blockno = (c.bufs i).blockno ∧
      ((c'.bufs i).valid = true → i ∈ C (hashOf (c.bufs i).dev (c.bufs i).blockno))) : c'.Wired L' C := by
  refine ⟨hlru, h.chains.congr hn hh, fun k i hi => ?_, fun i hv => ?_⟩
  · rw [(hb i).1, (hb i).2.1]; exact h.home k i hi
  · rw [(hb i).1, (hb i).2.1]; exact (hb i).2.2 hv

variable {i : Bid}

section

variable (h : c.Wired L C)
include h

theorem setBuf {b : Buf} (hdev : b.dev = (c.bufs i).dev) (hblk : b.blockno = (c.bufs i).blockno)
    (hv : b.valid = true → (c.bufs i).valid = true) : (c.setBuf i b).Wired L C := by
  refine h.congr (h.lru.congr rfl rfl) rfl rfl (fun j => ?_)
  by_cases hj : j = i
  · subst hj
    rw [show (c.setBuf j b).bufs j = b from update_self ..]
    exact ⟨hdev, hblk, fun hb => h.linked j (hv hb)⟩
  · rw [show (c.setBuf i b).bufs j = c.bufs j from update_of_ne hj ..]
    exact ⟨rfl, rfl, h.linked j⟩

theorem bwriteIo (a : Rw) (i : Bid) : (c.bwriteIo a i).Wired L C := by
  obtain ⟨hn, hp, hh, hhn, d, hb⟩ := bwriteIo_frame c a i
  refine h.congr (h.lru.congr hn hp) hhn hh (fun j => ?_)
  rw [hb]
  by_cases hj : j = i
  · subst hj; rw [update_self]; exact ⟨rfl, rfl, h.linked j⟩
  · rw [update_of_ne hj]; exact ⟨rfl, rfl, h.linked j⟩

theorem lookup (dev blockno : UInt32) : (∃ i, c.hashLookup dev blockno = some (some i) ∧ i ∈ C (hashOf dev blockno) ∧
    (c.bufs i).dev = dev ∧ (c.bufs i).blockno = blockno) ∨ (c.hashLookup dev blockno = some none ∧ ∀ k i, i ∈ C k →
    ¬ ((c.bufs i).dev = dev ∧ (c.bufs i).blockno = blockno)) := by
  rw [h.chains.lookup]
  cases hf : (C (hashOf dev blockno)).find? (fun i => (c.bufs i).dev == dev && (c.bufs i).blockno == blockno) with
  | some i =>
    have hk := find?_some hf
    simp only [Bool.and_eq_true, beq_iff_eq] at hk
    exact .inl ⟨i, rfl, mem_of_find?_eq_some hf, hk.1, hk.2⟩
  | none =>
    refine .inr ⟨rfl, fun k i hi hk => ?_⟩
    have hmem := h.home k i hi
    rw [hk.1, hk.2] at hmem
    have := find?_eq_none.1 hf i (hmem ▸ hi)
    simp only [hk.1, hk.2, beq_self_eq_true, Bool.and_self, not_true] at this

/-- **A hit** moves the buffer to the head, makes it valid and marks it busy. -/
theorem hitIo (a : Rw) {k : Fin HASH_SIZE} (hi : i ∈ C k) : (c.hitIo a i).Wired (i :: L.erase i) C ∧
    (c.hitIo a i).disk = c.disk ∧ (c.hitIo a i).bufs = update c.bufs i { (if !(c.bufs i).valid then { c.bufs i with data := c.readIo a (c.bufs i).dev (c.bufs i).blockno, valid := true } else c.bufs i) with busy := true } := by
  have hb : ∀ b : Buf, b = (if !(c.bufs i).valid then
      { c.bufs i with data := c.readIo a (c.bufs i).dev (c.bufs i).blockno, valid := true } else c.bufs i) →
      b.dev = (c.bufs i).dev ∧ b.blockno = (c.bufs i).blockno := by
    rintro b rfl
    split <;> exact ⟨rfl, rfl⟩
  unfold Cache.hitIo
  dsimp only
  generalize hbe : (if !(c.bufs i).valid then
      { c.bufs i with data := c.readIo a (c.bufs i).dev (c.bufs i).blockno, valid := true } else c.bufs i) = b at *
  obtain ⟨hdev, hblk⟩ := hb b rfl
  obtain ⟨r1, r2, r3, r4⟩ := lruRemove_frame (c.setBuf i b) i
  set r := (c.setBuf i b).lruRemove i
  obtain ⟨f1, f2, f3, f4⟩ := lruInsertHead_frame r i
  have hlru : (r.lruInsertHead i).Lru (i :: L.erase i) :=
    (show (c.setBuf i b).Lru L from h.lru.congr rfl rfl).touch i _ rfl rfl
  generalize r.lruInsertHead i = c5 at *
  have hbufs : (c5.setBuf i { c5.bufs i with busy := true }).bufs = update c.bufs i { b with busy := true } := by
    unfold Cache.setBuf
    dsimp only
    rw [f1, r1]
    unfold Cache.setBuf
    dsimp only
    rw [update_self, update_idem]
  refine ⟨h.congr (hlru.congr rfl rfl) (f3.trans r3) (f2.trans r2) (fun j => ?_), f4.trans r4, hbufs⟩
  rw [hbufs]
  by_cases hj : j = i
  · subst hj
    rw [update_self]
    exact ⟨hdev, hblk, fun _ => (h.home k j hi).symm ▸ hi⟩
  · rw [update_of_ne hj]
    exact ⟨rfl, rfl, h.linked j⟩

/-- **A buffer is taken over** when it leaves its chain first or is in none. -/
theorem takeOver (hi : (c.bufs i).valid = true ∨ ∀ k, i ∉ C k) (b : Buf) : ∃ c' C', c.takeOver i b = some c' ∧
    c'.Wired (i :: L.erase i) C' ∧ c'.bufs = update c.bufs i b ∧ c'.disk = c.disk ∧ ∀ k j, j ∈ C' k ↔
    (j = i ∧ k = hashOf b.dev b.blockno) ∨ (j ≠ i ∧ j ∈ C k) := by
  -- after the removal `i` is in no chain
  obtain ⟨hash, hashNext, C1, hrem, hch, hmem⟩ : ∃ hash hashNext C1,
      (if (c.bufs i).valid then c.hashRemove i else some c) = some { c with hash := hash, hashNext := hashNext } ∧
      ({ c with hash := hash, hashNext := hashNext } : Cache).Chains C1 ∧ ∀ k j, j ∈ C1 k ↔ j ≠ i ∧ j ∈ C k := by
    cases hv : (c.bufs i).valid with
    | false =>
      have hno : ∀ k, i ∉ C k := hi.resolve_left (by rw [hv]; decide)
      exact ⟨c.hash, c.hashNext, C, rfl, h.chains, fun k j => ⟨fun hj => ⟨fun hji => hno k (hji ▸ hj), hj⟩, fun hj => hj.2⟩⟩
    | true =>
      obtain ⟨hash, hashNext, heq, hch⟩ := h.chains.remove rfl (h.linked i hv)
      refine ⟨hash, hashNext, _, heq, hch, fun k j => ?_⟩
      by_cases hk : k = hashOf (c.bufs i).dev (c.bufs i).blockno
      · rw [hk, update_self, (h.chains.nodup _).mem_erase_iff]
      · rw [update_of_ne hk]
        exact ⟨fun hj => ⟨fun hji => hk (hji ▸ (h.home k j hj)).symm, hj⟩, fun hj => hj.2⟩
  generalize hc2 : ({ c with hash := hash, hashNext := hashNext } : Cache).setBuf i b = c2
  have hbufs2 : c2.bufs = update c.bufs i b := by rw [← hc2]; rfl
  have hlru2 : c2.Lru L := by rw [← hc2]; exact h.lru.congr rfl rfl
  have hch2 : c2.Chains C1 := by rw [← hc2]; exact hch.congr rfl rfl
  have hdisk2 : c2.disk = c.disk := by rw [← hc2]; rfl
  have heq : c.takeOver i b = some (((c2.lruRemove i).hashInsert i).lruInsertHead i) := by
    unfold Cache.takeOver
    rw [hrem]
    simp only [hc2]
  obtain ⟨r1, r2, r3, r4⟩ := lruRemove_frame c2 i
  have hins : ((c2.lruRemove i).hashInsert i).Chains (update C1 (hashOf b.dev b.blockno) (i :: C1 (hashOf b.dev b.blockno))) :=
    (hch2.congr r3 r2).insert (fun k hk => ((hmem k i).1 hk).1 rfl) (by rw [r1, hbufs2, update_self])
  obtain ⟨f1, f2, f3, f4⟩ := lruInsertHead_frame ((c2.lruRemove i).hashInsert i) i
  have hlru := hlru2.touch i ((c2.lruRemove i).hashInsert i) rfl rfl
  generalize ((c2.lruRemove i).hashInsert i).lruInsertHead i = c5 at *
  have hbufs : c5.bufs = update c.bufs i b := f1.trans (r1.trans hbufs2)
  have hmem' : ∀ k j, j ∈ update C1 (hashOf b.dev b.blockno) (i :: C1 (hashOf b.dev b.blockno)) k ↔
      (j = i ∧ k = hashOf b.dev b.blockno) ∨ (j ≠ i ∧ j ∈ C k) := by
    intro k j
    by_cases hk : k = hashOf b.dev b.blockno
    · subst hk
      rw [update_self, mem_cons, hmem]
      tauto
    · rw [update_of_ne hk, hmem]
      tauto
  refine ⟨c5, _, heq, ⟨hlru, hins.congr f3 f2, fun k j hj => ?_, fun j hv => ?_⟩, hbufs, f4.trans (r4.trans hdisk2), hmem'⟩
  · rw [hbufs]
    rcases (hmem' k j).1 hj with ⟨rfl, rfl⟩ | ⟨hne, hj⟩
    · rw [update_self]
    · rw [update_of_ne hne]; exact h.home k j hj
  · rw [hbufs] at hv ⊢
    refine (hmem' _ j).2 ?_
    by_cases hji : j = i
    · subst hji; rw [update_self]; exact .inl ⟨rfl, rfl⟩
    · rw [update_of_ne hji] at hv ⊢; exact .inr ⟨hji, h.linked j hv⟩

end

end Wired

theorem bufInit_wired (c : Cache) : c.bufInit.Wired (finRange NBUF).reverse (fun _ => []) := by
  obtain ⟨hlru, hhash, -, hflags⟩ := bufInit_spec c
  refine ⟨hlru, ⟨fun k => by rw [hhash]; rfl, fun _ => nodup_nil, fun _ _ _ hi => by cases hi⟩, fun _ _ hi => (by cases hi),
    fun i hv => ?_⟩
  rw [(hflags i).1] at hv
  cases hv

end Cache
end Noxis
