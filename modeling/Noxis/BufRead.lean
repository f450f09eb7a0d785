import Noxis.BufHash
/-!
# BufRead — holders of buffers, and device errors

What `bread` hands out, in a cache where `balloc` is not used.  Holding a buffer is one bit, which the first of several
holders clears for all: `held_buffers_keep` says that a held buffer stays what it is when nobody releases a buffer that
another caller holds.  `bread` and `_evict` do not look at what `blk_rw` answers: `contents_right_iff` says which failures
give a caller wrong bytes or lose a modification.
-/
namespace Noxis

open List Bool Function Sys Cache
namespace Cache

open Linked

/-! ## `bread` without `balloc` -/

/-- The links are in order, no block has two buffers, and every linked buffer is valid. -/
def Filled (c : Cache) : Prop := ∃ L C, c.Wired L C ∧ c.Sole C ∧ ∀ k i, i ∈ C k → (c.bufs i).valid = true

variable {c c' : Cache} {i j : Bid}

theorem Filled.keys (h : c.Filled) (hi : (c.bufs i).valid = true) (hj : (c.bufs j).valid = true)
    (hd : (c.bufs i).dev = (c.bufs j).dev) (hb : (c.bufs i).blockno = (c.bufs j).blockno) : i = j := by
  obtain ⟨L, C, hw, hs, -⟩ := h
  exact hs _ _ i j (hw.linked i hi) (hw.linked j hj) hd hb

theorem bufInit_filled (c : Cache) : c.bufInit.Filled :=
  ⟨_, _, bufInit_wired c, fun _ _ _ _ hi => (by cases hi), fun _ _ hi => (by cases hi)⟩

theorem Filled.congr (h : c.Filled) (hn : c'.next = c.next) (hp : c'.prev = c.prev) (hh : c'.hash = c.hash)
    (hhn : c'.hashNext = c.hashNext) (hb : ∀ i, (c'.bufs i).dev = (c.bufs i).dev ∧
      (c'.bufs i).blockno = (c.bufs i).blockno ∧ (c'.bufs i).valid = (c.bufs i).valid) : c'.Filled := by
  obtain ⟨L, C, hw, hs, hv⟩ := h
  refine ⟨L, C, hw.congr (hw.lru.congr hn hp) hhn hh (fun i => ⟨(hb i).1, (hb i).2.1, fun hvi => ?_⟩),
    hs.congr (fun i => ⟨(hb i).1, (hb i).2.1⟩), fun k i hi => ?_⟩
  · exact hw.linked i ((hb i).2.2 ▸ hvi)
  · rw [(hb i).2.2]; exact hv k i hi

theorem Filled.setBuf (h : c.Filled) {b : Buf} (hdev : b.dev = (c.bufs i).dev)
    (hblk : b.blockno = (c.bufs i).blockno) (hv : b.valid = (c.bufs i).valid) : (c.setBuf i b).Filled := by
  refine h.congr rfl rfl rfl rfl (fun j => ?_)
  by_cases hj : j = i
  · subst hj; rw [show (c.setBuf j b).bufs j = b from update_self ..]; exact ⟨hdev, hblk, hv⟩
  · rw [show (c.setBuf i b).bufs j = c.bufs j from update_of_ne hj ..]; exact ⟨rfl, rfl, rfl⟩

theorem Filled.bwriteIo (h : c.Filled) (a : Rw) (i : Bid) : (c.bwriteIo a i).Filled := by
  obtain ⟨hn, hp, hh, hhn, -⟩ := bwriteIo_frame c a i
  exact h.congr hn hp hh hhn (bwriteIo_buf c a i)

/-- **What `bread` does**: it finds the valid buffer of the block, or takes over a buffer that is not busy, which it has written
out if dirty, or has none because all are busy. -/
theorem Filled.bread (h : c.Filled) (dev blockno : UInt32) (w r : Rw) :
    (∃ c' i, c.hashLookup dev blockno = some (some i) ∧ c.breadIo dev blockno w r = some (c', some i) ∧ c'.Filled ∧
      (c.bufs i).valid = true ∧ (c.bufs i).dev = dev ∧ (c.bufs i).blockno = blockno ∧
      c'.bufs = update c.bufs i { c.bufs i with busy := true } ∧ c'.disk = c.disk) ∨
    (c.hashLookup dev blockno = some none ∧
      (∀ j, (c.bufs j).valid = true → ¬ ((c.bufs j).dev = dev ∧ (c.bufs j).blockno = blockno)) ∧
      ((∃ c' i, c.victim = some i ∧ c.breadIo dev blockno w r = some (c', some i) ∧ c'.Filled ∧ (c.bufs i).busy = false ∧
        c'.bufs = update c.bufs i ⟨dev, blockno, true, false, true, (c.bwriteIo w i).readIo r dev blockno⟩ ∧
        c'.disk = (c.bwriteIo w i).disk) ∨
      (c.victim = none ∧ c.breadIo dev blockno w r = some (c, none)))) := by
  obtain ⟨L, C, hw, hs, hvalid⟩ := h
  rcases hw.lookup dev blockno with ⟨i, hl, hi, hd, hb⟩ | ⟨hl, hnew⟩
  · have hv := hvalid _ i hi
    obtain ⟨hw', hdisk, hbufs⟩ := hw.hitIo r hi
    rw [hv] at hbufs
    have hbufs' : (c.hitIo r i).bufs = update c.bufs i { c.bufs i with busy := true } := hbufs
    have hkeys : ∀ j, ((c.hitIo r i).bufs j).dev = (c.bufs j).dev ∧ ((c.hitIo r i).bufs j).blockno = (c.bufs j).blockno ∧
        ((c.hitIo r i).bufs j).valid = (c.bufs j).valid := by
      intro j
      rw [hbufs']
      by_cases hj : j = i
      · subst hj; rw [update_self]; exact ⟨rfl, rfl, rfl⟩
      · rw [update_of_ne hj]; exact ⟨rfl, rfl, rfl⟩
    refine .inl ⟨_, i, hl, breadIo_hit hl w r, ⟨_, C, hw', hs.congr (fun j => ⟨(hkeys j).1, (hkeys j).2.1⟩), fun k j hj => ?_⟩,
      hv, hd, hb, hbufs', hdisk⟩
    rw [(hkeys j).2.2]
    exact hvalid k j hj
  · refine .inr ⟨hl, fun j hj => hnew _ j (hw.linked j hj), ?_⟩
    rw [breadIo_miss hw.lru hl]
    rcases evictIo_cases hw.lru w with ⟨i, hv, -, hbusy⟩ | ⟨hv, -, -⟩
    · rw [hv]
      obtain ⟨-, -, -, -, d, hd⟩ := bwriteIo_frame c w i
      have hvalid' : ∀ k j, j ∈ C k → ((c.bwriteIo w i).bufs j).valid = true := fun k j hj => by
        rw [(bwriteIo_buf c w i j).2.2]; exact hvalid k j hj
      have hfree : ((c.bwriteIo w i).bufs i).valid = true ∨ ∀ k, i ∉ C k := by
        cases hvi : ((c.bwriteIo w i).bufs i).valid with
        | true => exact .inl rfl
        | false => exact .inr (fun k hk => by rw [hvalid' k i hk] at hvi; cases hvi)
      obtain ⟨c', C', heq, hw', hb, hdisk, hmem⟩ := (hw.bwriteIo w i).takeOver hfree
        ⟨dev, blockno, true, false, true, (c.bwriteIo w i).readIo r dev blockno⟩
      have hs' : (c.bwriteIo w i).Sole C := hs.congr (fun j => ⟨(bwriteIo_buf c w i j).1, (bwriteIo_buf c w i j).2.1⟩)
      refine .inl ⟨c', i, rfl, by simp only [heq]; rfl, ⟨_, C', hw', (hs'.takeOver hb hmem).2 (fun j _ hj => ?_), fun k j hj => ?_⟩,
        hbusy, ?_, hdisk⟩
      · rw [(bwriteIo_buf c w i j).1, (bwriteIo_buf c w i j).2.1]
        obtain ⟨k, hk⟩ := hj
        exact hnew k j hk
      · rw [hb]
        rcases (hmem k j).1 hj with ⟨rfl, -⟩ | ⟨hne, hj⟩
        · rw [update_self]
        · rw [update_of_ne hne]; exact hvalid' k j hj
      · rw [hb, hd, update_idem]
    · rw [hv]
      exact .inr ⟨rfl, rfl⟩

/-! ## Holders -/

/-- A caller holds the buffer `buf`, which `bread` has returned for a block with these bytes. -/
structure Hold where
  buf : Bid
  dev : UInt32
  blockno : UInt32
  data : Block

structure Held where
  cache : Cache
  holds : List Hold

inductive HoldOp where
  | bread (dev blockno : UInt32) (w r : Rw)
  | brelse (k : Nat)

def Held.apply (s : Held) : HoldOp → Option (Held × Option Bid)
  | .bread dev blockno w r =>
    match s.cache.breadIo dev blockno w r with
    | none => none
    | some (c, none) => some (⟨c, s.holds⟩, none)
    | some (c, some i) => some (⟨c, ⟨i, dev, blockno, (c.bufs i).data⟩ :: s.holds⟩, some i)
  | .brelse k =>
    match s.holds[k]? with
    | none => some (s, none)
    | some d => some (⟨s.cache.brelse d.buf, s.holds.eraseIdx k⟩, none)

def holdStep : Option Held → HoldOp → Option Held × Option Bid
  | none, _ => (none, none)
  | some s, op =>
    match s.apply op with
    | none => (none, none)
    | some (s', r) => (some s', r)

/-- Every held buffer has the block and the bytes it was handed out with. -/
def Held.Kept (s : Held) : Prop :=
  ∀ d ∈ s.holds, (s.cache.bufs d.buf).dev = d.dev ∧ (s.cache.bufs d.buf).blockno = d.blockno ∧ (s.cache.bufs d.buf).data = d.data

def Held.Alone (s : Held) : HoldOp → Prop
  | .bread .. => True
  | .brelse k => ∀ d, s.holds[k]? = some d → ∀ d' ∈ s.holds.eraseIdx k, d'.buf ≠ d.buf

structure Held.Good (s : Held) : Prop where
  filled : s.cache.Filled
  kept : s.Kept
  busy : ∀ d ∈ s.holds, (s.cache.bufs d.buf).busy = true

/-- **A release by the only holder, and every `bread`, leave the other holders what they have.** -/
theorem Held.Good.apply {s : Held} (h : s.Good) (op : HoldOp) (hop : s.Alone op) :
    ∃ s' r, s.apply op = some (s', r) ∧ s'.Good := by
  cases op with
  | bread dev blockno w r =>
    rcases h.filled.bread dev blockno w r with ⟨c', i, -, heq, hf, -, hd, hb, hbufs, -⟩ | ⟨-, -, ⟨c', i, -, heq, hf, hfree, hbufs, -⟩ | ⟨-, heq⟩⟩
    · refine ⟨_, _, by rw [Held.apply, heq], hf, fun d hd' => ?_, fun d hd' => ?_⟩
      · rw [hbufs]
        rcases mem_cons.1 hd' with rfl | hm
        · dsimp only
          rw [hbufs, update_self]
          exact ⟨hd, hb, rfl⟩
        · by_cases hi : d.buf = i
          · rw [← hi, update_self]; exact h.kept d hm
          · rw [update_of_ne hi]; exact h.kept d hm
      · rw [hbufs]
        by_cases hi : d.buf = i
        · rw [← hi, update_self]
        · rw [update_of_ne hi]
          rcases mem_cons.1 hd' with rfl | hm
          · exact absurd rfl hi
          · exact h.busy d hm
    · -- the buffer taken over was not busy, so nobody holds it
      have hne : ∀ d ∈ s.holds, d.buf ≠ i := fun d hm hi => by
        have := h.busy d hm
        rw [hi, hfree] at this
        cases this
      refine ⟨_, _, by rw [Held.apply, heq], hf, fun d hd' => ?_, fun d hd' => ?_⟩
      · rw [hbufs]
        rcases mem_cons.1 hd' with rfl | hm
        · dsimp only
          rw [hbufs, update_self]
          exact ⟨rfl, rfl, rfl⟩
        · rw [update_of_ne (hne d hm)]; exact h.kept d hm
      · rw [hbufs]
        rcases mem_cons.1 hd' with rfl | hm
        · dsimp only
          rw [update_self]
        · rw [update_of_ne (hne d hm)]; exact h.busy d hm
    · exact ⟨_, _, by rw [Held.apply, heq], h⟩
  | brelse k =>
    cases hk : s.holds[k]? with
    | none => exact ⟨s, none, by rw [Held.apply, hk], h⟩
    | some d =>
      have hne : ∀ d' ∈ s.holds.eraseIdx k, d'.buf ≠ d.buf := hop d hk
      refine ⟨_, none, by rw [Held.apply, hk], 
        h.filled.setBuf (b := { s.cache.bufs d.buf with busy := false }) rfl rfl rfl, fun d' hd' => ?_, fun d' hd' => ?_⟩
      · rw [show (s.cache.brelse d.buf).bufs d'.buf = s.cache.bufs d'.buf from update_of_ne (hne d' hd') ..]
        exact h.kept d' (mem_of_mem_eraseIdx hd')
      · rw [show (s.cache.brelse d.buf).bufs d'.buf = s.cache.bufs d'.buf from update_of_ne (hne d' hd') ..]
        exact h.busy d' (mem_of_mem_eraseIdx hd')

/-- **A held buffer is not recycled** in any run from `buf_init` on, whatever `blk_rw` answers, in which nobody releases a buffer
that another caller still holds: in every state each holder's buffer has the block and the bytes it was returned with. -/
theorem held_buffers_keep (c : Cache) (ops : List HoldOp)
    (hops : ∀ pre op post, ops = pre ++ op :: post → ∀ s, (run holdStep (some ⟨c.bufInit, []⟩) pre).1 = some s → s.Alone op) :
    Always holdStep (fun s => ∃ s', s = some s' ∧ s'.Kept) (some ⟨c.bufInit, []⟩) ops := by
  rintro pre ⟨post, rfl⟩
  have hgood : ∃ s' : Held, (run holdStep (some ⟨c.bufInit, []⟩) pre).1 = some s' ∧ s'.Good := by
    refine run_inv (P := fun s => ∃ s' : Held, s = some s' ∧ s'.Good) (C := fun s op => ∀ s' : Held, s = some s' → s'.Alone op)
      (fun s op hs hop => ?_) pre _ ⟨_, rfl, bufInit_filled c, fun d hd => (by cases hd), fun d hd => (by cases hd)⟩
      (fun p op q hp => hops p op (q ++ post) (by rw [hp]; simp))
    obtain ⟨s', rfl, hg⟩ := hs
    obtain ⟨s2, r, heq, hg2⟩ := hg.apply op (hop s' rfl)
    exact ⟨s2, by rw [holdStep, heq], hg2⟩
  obtain ⟨s', hs', hg⟩ := hgood
  exact ⟨s', hs', hg.kept⟩

theorem held_buffers_keep_one : Always holdStep (fun s => ∃ s', s = some s' ∧ s'.Kept) (some ⟨Sys.zeroCache.bufInit, []⟩)
    [.bread 0 5 .ok .ok, .brelse 0] := by
  refine held_buffers_keep zeroCache [.bread 0 5 .ok .ok, .brelse 0] (splits_cons.2
    ⟨fun _ _ => trivial, splits_cons.2 ⟨fun s hs => ?_, splits_nil⟩⟩)
  have hone : (run holdStep (some ⟨zeroCache.bufInit, []⟩) [.bread 0 5 .ok .ok]).1.all (fun s =>
      (s.holds.eraseIdx 0).isEmpty) = true := by decide +kernel
  rw [hs] at hone
  intro d _ d' hd'
  rw [isEmpty_iff.1 hone] at hd'
  cases hd'

def sharedHold : List HoldOp := [.bread 0 1 .ok .ok, .bread 0 1 .ok .ok, .brelse 0]

def otherReads : List HoldOp :=
  (List.range 15).flatMap (fun n => [.bread 0 (UInt32.ofNat (n + 2)) .ok .ok, .brelse 0]) ++ [.bread 0 17 .ok .ok]

/-- **The buffer of a caller is recycled under it**: after the first release of `sharedHold` the buffer is not busy, and the
sixteenth read takes it over; then all release what they hold. -/
theorem shared_hold_recycled : ¬ Always holdStep (fun s => ∃ s', s = some s' ∧ s'.Kept) (some ⟨Sys.zeroCache.bufInit, []⟩)
      (sharedHold ++ otherReads ++ [.brelse 0, .brelse 0]) ∧
    (run holdStep (some ⟨Sys.zeroCache.bufInit, []⟩) (sharedHold ++ otherReads)).1.any (fun s =>
      s.holds.any (fun d => d.blockno == 1 && (s.cache.bufs d.buf).blockno == 17)) = true ∧
    (run holdStep (some ⟨Sys.zeroCache.bufInit, []⟩) (sharedHold ++ otherReads ++ [.brelse 0, .brelse 0])).1.any (fun s =>
      s.holds.isEmpty) = true := by
  have hany : (run holdStep (some ⟨zeroCache.bufInit, []⟩) (sharedHold ++ otherReads)).1.any (fun s =>
      s.holds.any (fun d => d.blockno == 1 && (s.cache.bufs d.buf).blockno == 17)) = true := by decide +kernel
  refine ⟨fun h => ?_, hany, by decide +kernel⟩
  obtain ⟨s, hs, hkept⟩ := h (sharedHold ++ otherReads) (prefix_append _ _)
  rw [hs] at hany
  obtain ⟨d, hd, hb⟩ := any_eq_true.1 hany
  simp only [and_eq_true, beq_iff_eq] at hb
  have := (hkept d hd).2.1
  rw [hb.1, hb.2] at this
  exact absurd this (by decide)

/-! ## Device errors -/

/-- The cache with two history variables: the modifications of each block that are marked and not written to the device yet,
and the buffer the last call has returned, with the block asked for. -/
structure Watched where
  cache : Cache
  pending : UInt32 → UInt32 → Option Block
  got : Option (Bid × UInt32 × UInt32)

inductive RwOp where
  | bread (dev blockno : UInt32) (w r : Rw)
  | modify (i : Bid) (data : Block)
  | bwrite (i : Bid) (a : Rw)
  | brelse (i : Bid)

/-- A write of the buffer `i` that succeeds leaves nothing to be written of its block. -/
def Watched.wrote (s : Watched) (a : Rw) (i : Bid) : UInt32 → UInt32 → Option Block :=
  match a with
  | .failed _ => s.pending
  | .ok =>
    if (s.cache.bufs i).dirty then
      update s.pending (s.cache.bufs i).dev (update (s.pending (s.cache.bufs i).dev) (s.cache.bufs i).blockno none)
    else s.pending

/-- One call; none when a loop does not end.  Callers modify buffers that `bread` has returned, which are valid. -/
def Watched.apply (s : Watched) : RwOp → Option Watched
  | .bread dev blockno w r =>
    match s.cache.breadIo dev blockno w r with
    | none => none
    | some (c, g) =>
      some ⟨c, match s.cache.hashLookup dev blockno, s.cache.victim with
        | some none, some i => s.wrote w i
        | _, _ => s.pending, g.map (·, dev, blockno)⟩
  | .modify i data =>
    if (s.cache.bufs i).valid then
      some ⟨s.cache.setBuf i { s.cache.bufs i with data := data, dirty := true },
        update s.pending (s.cache.bufs i).dev (update (s.pending (s.cache.bufs i).dev) (s.cache.bufs i).blockno (some data)), none⟩
    else some { s with got := none }
  | .bwrite i a => some ⟨s.cache.bwriteIo a i, s.wrote a i, none⟩
  | .brelse i => some ⟨s.cache.brelse i, s.pending, none⟩

def watchStep (s : Option Watched) (op : RwOp) : Option Watched × Unit := (s.bind (·.apply op), ())

/-- The content of a block: the newest modification that is not written, else what the device holds. -/
def Watched.content (s : Watched) (dev blockno : UInt32) : Block := (s.pending dev blockno).getD (s.cache.disk dev blockno)

/-- The buffer that `bread` has returned holds the content of its block, and every modification that is not written is in a
buffer of its block that is marked. -/
def Watched.Right (s : Watched) : Prop :=
  (∀ i dev blockno, s.got = some (i, dev, blockno) → (s.cache.bufs i).dev = dev ∧ (s.cache.bufs i).blockno = blockno ∧
    (s.cache.bufs i).data = s.content dev blockno) ∧
  ∀ dev blockno data, s.pending dev blockno = some data → ∃ i, (s.cache.bufs i).valid = true ∧ (s.cache.bufs i).dev = dev ∧
    (s.cache.bufs i).blockno = blockno ∧ (s.cache.bufs i).dirty = true ∧ (s.cache.bufs i).data = data

/-- On a miss the write of the buffer picked does not fail, and the read does not, or has left the bytes of the block. -/
def Watched.Answered (s : Watched) : RwOp → Prop
  | .bread dev blockno w r => s.cache.hashLookup dev blockno = some none → ∀ i, s.cache.victim = some i →
      ((s.cache.bufs i).dirty = true → w = .ok) ∧ s.cache.readIo r dev blockno = s.cache.disk dev blockno
  | _ => True

/-- A marked buffer has the pending modification of its block, any other valid one what the device holds. -/
structure Watched.Good (s : Watched) : Prop where
  filled : s.cache.Filled
  marked : ∀ i, (s.cache.bufs i).dirty = true → (s.cache.bufs i).valid = true ∧
    s.pending (s.cache.bufs i).dev (s.cache.bufs i).blockno = some (s.cache.bufs i).data
  clean : ∀ i, (s.cache.bufs i).valid = true → (s.cache.bufs i).dirty = false →
    s.pending (s.cache.bufs i).dev (s.cache.bufs i).blockno = none ∧
    (s.cache.bufs i).data = s.cache.disk (s.cache.bufs i).dev (s.cache.bufs i).blockno
  cached : ∀ dev blockno, s.pending dev blockno ≠ none → ∃ i, (s.cache.bufs i).dirty = true ∧ (s.cache.bufs i).dev = dev ∧
    (s.cache.bufs i).blockno = blockno
  got : ∀ i dev blockno, s.got = some (i, dev, blockno) → (s.cache.bufs i).valid = true ∧ (s.cache.bufs i).dev = dev ∧
    (s.cache.bufs i).blockno = blockno

variable {s : Watched}

theorem Watched.Good.right (h : s.Good) : s.Right := by
  refine ⟨fun i dev blockno hg => ?_, fun dev blockno data hp => ?_⟩
  · obtain ⟨hv, rfl, rfl⟩ := h.got i dev blockno hg
    refine ⟨rfl, rfl, ?_⟩
    unfold Watched.content
    cases hd : (s.cache.bufs i).dirty with
    | true => rw [(h.marked i hd).2]; rfl
    | false => rw [(h.clean i hv hd).1]; exact (h.clean i hv hd).2
  · obtain ⟨i, hd, rfl, rfl⟩ := h.cached dev blockno (by rw [hp]; nofun)
    obtain ⟨hv, hpend⟩ := h.marked i hd
    exact ⟨i, hv, rfl, rfl, hd, Option.some.inj (hpend.symm.trans hp)⟩

theorem Watched.Good.sole (h : s.Good) (hd : (s.cache.bufs i).dirty = true)
    (hj : (s.cache.bufs j).valid = true) (hji : j ≠ i) :
    ¬ ((s.cache.bufs j).dev = (s.cache.bufs i).dev ∧ (s.cache.bufs j).blockno = (s.cache.bufs i).blockno) :=
  fun hk => hji (h.filled.keys hj (h.marked i hd).1 hk.1 hk.2)

theorem Watched.wrote_clean (h : (s.cache.bufs i).dirty = false) (a : Rw) :
    s.cache.bwriteIo a i = s.cache ∧ s.wrote a i = s.pending := by
  unfold bwriteIo Watched.wrote
  rw [h]
  cases a <;> exact ⟨rfl, rfl⟩

theorem Watched.wrote_failed (h : (s.cache.bufs i).dirty = true) (left : Block) : s.cache.bwriteIo (.failed left) i =
      { s.cache with disk := writeBlock s.cache.disk (s.cache.bufs i).dev (s.cache.bufs i).blockno left } := by
  unfold bwriteIo
  rw [h]
  rfl

theorem Watched.wrote_ok (h : (s.cache.bufs i).dirty = true) :
    let r := s.cache.bufs i
    (s.cache.bwriteIo .ok i).bufs = update s.cache.bufs i { s.cache.bufs i with dirty := false } ∧
    (s.cache.bwriteIo .ok i).disk = writeBlock s.cache.disk r.dev r.blockno r.data ∧
    s.wrote .ok i = update s.pending r.dev (update (s.pending r.dev) r.blockno none) := by
  unfold bwriteIo Watched.wrote
  dsimp only
  rw [if_neg (by rw [h]; decide), if_pos h]
  exact ⟨rfl, rfl, rfl⟩

/-- **A write**, failed or not: the modification stays in its marked buffer, or is on the device. -/
theorem Watched.Good.write (h : s.Good) (a : Rw) (i : Bid) : (⟨s.cache.bwriteIo a i, s.wrote a i, none⟩ : Watched).Good := by
  have hf := h.filled.bwriteIo a i
  cases hd : (s.cache.bufs i).dirty with
  | false =>
    obtain ⟨hc, hp⟩ := Watched.wrote_clean hd a
    rw [hc, hp]
    exact ⟨h.filled, h.marked, h.clean, h.cached, nofun⟩
  | true =>
    cases a with
    | failed left =>
      rw [Watched.wrote_failed hd] at hf ⊢
      refine ⟨hf, h.marked, fun j hv hdj => ⟨(h.clean j hv hdj).1, ?_⟩, h.cached, nofun⟩
      have hji : j ≠ i := fun hx => by rw [hx] at hdj; exact absurd (hd.symm.trans hdj) (by decide)
      exact (h.clean j hv hdj).2.trans ((update_pair ..).trans (if_neg (h.sole hd hv hji))).symm
    | ok =>
      obtain ⟨hb, hdisk, hp⟩ := Watched.wrote_ok hd
      rw [hp]
      generalize s.cache.bwriteIo .ok i = c' at *
      have hself : c'.bufs i = { s.cache.bufs i with dirty := false } := by rw [hb, update_self]
      have hoth : ∀ j, j ≠ i → c'.bufs j = s.cache.bufs j := fun j hj => by rw [hb, update_of_ne hj]
      refine ⟨hf, fun j hdj => ?_, fun j hv hdj => ?_, fun dev blockno hp => ?_, nofun⟩
      · dsimp only at hdj ⊢
        by_cases hji : j = i
        · subst hji; rw [hself] at hdj; cases hdj
        · rw [hoth j hji] at hdj ⊢
          obtain ⟨hv, hp⟩ := h.marked j hdj
          exact ⟨hv, (update_pair ..).trans ((if_neg (h.sole hd hv hji)).trans hp)⟩
      · dsimp only at hv hdj ⊢
        rw [hdisk]
        by_cases hji : j = i
        · subst hji
          rw [hself]
          exact ⟨(update_pair ..).trans (if_pos ⟨rfl, rfl⟩), ((update_pair ..).trans (if_pos ⟨rfl, rfl⟩)).symm⟩
        · rw [hoth j hji] at hv hdj ⊢
          obtain ⟨hp, hdata⟩ := h.clean j hv hdj
          have hkey := h.sole hd hv hji
          exact ⟨(update_pair ..).trans ((if_neg hkey).trans hp), hdata.trans ((update_pair ..).trans (if_neg hkey)).symm⟩
      · dsimp only at hp ⊢
        rw [update_pair] at hp
        split at hp
        · exact absurd rfl hp
        · next hkey =>
          obtain ⟨j, hdj, hdev, hblk⟩ := h.cached dev blockno hp
          have hji : j ≠ i := fun hx => hkey (by rw [← hx]; exact ⟨hdev.symm, hblk.symm⟩)
          exact ⟨j, by rw [hoth j hji]; exact ⟨hdj, hdev, hblk⟩⟩

variable {dev blockno : UInt32}

/-- **A buffer that is not marked** takes over a block that no buffer has, with the bytes of the device. -/
theorem Watched.Good.refill (h : s.Good) (hd : (s.cache.bufs i).dirty = false)
    (hnew : ∀ j, (s.cache.bufs j).valid = true → ¬ ((s.cache.bufs j).dev = dev ∧ (s.cache.bufs j).blockno = blockno))
    (hf : c'.Filled) (hb : c'.bufs = update s.cache.bufs i ⟨dev, blockno, true, false, true, s.cache.disk dev blockno⟩)
    (hdisk : c'.disk = s.cache.disk) : (⟨c', s.pending, some (i, dev, blockno)⟩ : Watched).Good := by
  have hself : c'.bufs i = ⟨dev, blockno, true, false, true, s.cache.disk dev blockno⟩ := by rw [hb, update_self]
  have hoth : ∀ j, j ≠ i → c'.bufs j = s.cache.bufs j := fun j hj => by rw [hb, update_of_ne hj]
  refine ⟨hf, fun j hdj => ?_, fun j hv hdj => ?_, fun d b hp => ?_, fun j d b hg => ?_⟩
  · dsimp only at hdj ⊢
    by_cases hji : j = i
    · subst hji; rw [hself] at hdj; cases hdj
    · rw [hoth j hji] at hdj ⊢; exact h.marked j hdj
  · dsimp only at hv hdj ⊢
    by_cases hji : j = i
    · subst hji
      rw [hself, hdisk]
      refine ⟨?_, rfl⟩
      by_contra hp
      obtain ⟨j', hdj', hk⟩ := h.cached dev blockno hp
      exact hnew j' (h.marked j' hdj').1 hk
    · rw [hoth j hji] at hv hdj ⊢
      rw [hdisk]
      exact h.clean j hv hdj
  · obtain ⟨j, hdj, hk⟩ := h.cached d b hp
    have hji : j ≠ i := fun hx => by rw [hx, hd] at hdj; cases hdj
    exact ⟨j, by dsimp only; rw [hoth j hji]; exact ⟨hdj, hk⟩⟩
  · obtain ⟨rfl, rfl, rfl⟩ : i = j ∧ dev = d ∧ blockno = b := by
      have := Option.some.inj hg
      exact ⟨congrArg Prod.fst this, congrArg (·.2.1) this, congrArg (·.2.2) this⟩
    dsimp only
    rw [hself]
    exact ⟨rfl, rfl, rfl⟩

theorem Watched.Good.busy (h : s.Good) {g : Option (Bid × UInt32 × UInt32)} {b : Bool}
    (hf : c'.Filled) (hb : c'.bufs = update s.cache.bufs i { s.cache.bufs i with busy := b }) (hdisk : c'.disk = s.cache.disk)
    (hg : ∀ j dev blockno, g = some (j, dev, blockno) → (s.cache.bufs j).valid = true ∧ (s.cache.bufs j).dev = dev ∧
      (s.cache.bufs j).blockno = blockno) : (⟨c', s.pending, g⟩ : Watched).Good := by
  have hsame : ∀ j, (c'.bufs j).dev = (s.cache.bufs j).dev ∧ (c'.bufs j).blockno = (s.cache.bufs j).blockno ∧
      (c'.bufs j).valid = (s.cache.bufs j).valid ∧ (c'.bufs j).dirty = (s.cache.bufs j).dirty ∧
      (c'.bufs j).data = (s.cache.bufs j).data := by
    intro j
    rw [hb]
    by_cases hj : j = i
    · subst hj; rw [update_self]; exact ⟨rfl, rfl, rfl, rfl, rfl⟩
    · rw [update_of_ne hj]; exact ⟨rfl, rfl, rfl, rfl, rfl⟩
  refine ⟨hf, fun j => ?_, fun j => ?_, fun dev blockno hp => ?_, fun j dev blockno hj => ?_⟩
  · obtain ⟨h1, h2, h3, h4, h5⟩ := hsame j
    dsimp only
    rw [h1, h2, h3, h4, h5]
    exact h.marked j
  · obtain ⟨h1, h2, h3, h4, h5⟩ := hsame j
    dsimp only
    rw [h1, h2, h3, h4, h5, hdisk]
    exact h.clean j
  · obtain ⟨j, hj⟩ := h.cached dev blockno hp
    obtain ⟨h1, h2, -, h4, -⟩ := hsame j
    exact ⟨j, by dsimp only; rw [h1, h2, h4]; exact hj⟩
  · obtain ⟨h1, h2, h3, -, -⟩ := hsame j
    dsimp only
    rw [h1, h2, h3]
    exact hg j dev blockno hj

/-- **A caller modifies a buffer and marks it.** -/
theorem Watched.Good.modify (h : s.Good) (hv : (s.cache.bufs i).valid = true) (data : Block) :
    (⟨s.cache.setBuf i { s.cache.bufs i with data := data, dirty := true },
      update s.pending (s.cache.bufs i).dev (update (s.pending (s.cache.bufs i).dev) (s.cache.bufs i).blockno (some data)),
      none⟩ : Watched).Good := by
  have hf := h.filled.setBuf (i := i) (b := { s.cache.bufs i with data := data, dirty := true }) rfl rfl rfl
  have hdisk : (s.cache.setBuf i { s.cache.bufs i with data := data, dirty := true }).disk = s.cache.disk := rfl
  have hself : (s.cache.setBuf i { s.cache.bufs i with data := data, dirty := true }).bufs i =
      { s.cache.bufs i with data := data, dirty := true } := update_self ..
  have hoth : ∀ j, j ≠ i → (s.cache.setBuf i { s.cache.bufs i with data := data, dirty := true }).bufs j = s.cache.bufs j :=
    fun j hj => update_of_ne hj ..
  generalize s.cache.setBuf i { s.cache.bufs i with data := data, dirty := true } = c' at *
  have hkey : ∀ j, j ≠ i → (s.cache.bufs j).valid = true →
      ¬ ((s.cache.bufs j).dev = (s.cache.bufs i).dev ∧ (s.cache.bufs j).blockno = (s.cache.bufs i).blockno) :=
    fun j hj hvj hk => hj (h.filled.keys hvj hv hk.1 hk.2)
  refine ⟨hf, fun j hdj => ?_, fun j hvj hdj => ?_, fun dev blockno hp => ?_, nofun⟩
  · dsimp only at hdj ⊢
    by_cases hji : j = i
    · subst hji
      rw [hself]
      exact ⟨hv, (update_pair ..).trans (if_pos ⟨rfl, rfl⟩)⟩
    · rw [hoth j hji] at hdj ⊢
      obtain ⟨hvj, hp⟩ := h.marked j hdj
      exact ⟨hvj, (update_pair ..).trans ((if_neg (hkey j hji hvj)).trans hp)⟩
  · dsimp only at hvj hdj ⊢
    by_cases hji : j = i
    · subst hji; rw [hself] at hdj; cases hdj
    · rw [hoth j hji] at hvj hdj ⊢
      rw [hdisk]
      obtain ⟨hp, hdata⟩ := h.clean j hvj hdj
      exact ⟨(update_pair ..).trans ((if_neg (hkey j hji hvj)).trans hp), hdata⟩
  · dsimp only at hp ⊢
    by_cases hk : dev = (s.cache.bufs i).dev ∧ blockno = (s.cache.bufs i).blockno
    · exact ⟨i, by rw [hself]; exact ⟨rfl, hk.1.symm, hk.2.symm⟩⟩
    · rw [update_pair, if_neg hk] at hp
      obtain ⟨j, hdj, hdev, hblk⟩ := h.cached dev blockno hp
      have hji : j ≠ i := fun hx => hk (by rw [← hx]; exact ⟨hdev.symm, hblk.symm⟩)
      exact ⟨j, by rw [hoth j hji]; exact ⟨hdj, hdev, hblk⟩⟩

theorem bwriteIo_disk (c : Cache) (a : Rw)
    (h : (c.bufs i).dirty = true → ¬ ((c.bufs i).dev = dev ∧ (c.bufs i).blockno = blockno)) :
    (c.bwriteIo a i).disk dev blockno = c.disk dev blockno := by
  unfold bwriteIo
  split
  · rfl
  next hd =>
  have hk := h (by simpa using hd)
  have hne : ∀ x, writeBlock c.disk (c.bufs i).dev (c.bufs i).blockno x dev blockno = c.disk dev blockno := fun x =>
    (update_pair ..).trans (if_neg (fun hx => hk ⟨hx.1.symm, hx.2.symm⟩))
  cases a <;> exact hne _

theorem Watched.apply_miss {w r : Rw} (hl : s.cache.hashLookup dev blockno = some none) (hv : s.cache.victim = some i)
    (heq : s.cache.breadIo dev blockno w r = some (c', some i)) :
    s.apply (.bread dev blockno w r) = some ⟨c', s.wrote w i, some (i, dev, blockno)⟩ := by
  rw [Watched.apply, heq, hl, hv]
  rfl

/-- **A call whose reads and evictions do not fail keeps the contents right.** -/
theorem Watched.Good.apply (h : s.Good) (op : RwOp) (hop : s.Answered op) : ∃ s', s.apply op = some s' ∧ s'.Good := by
  cases op with
  | bread dev blockno w r =>
    rcases h.filled.bread dev blockno w r with ⟨c', i, hl, heq, hf, hv, hd, hb, hbufs, hdisk⟩ | ⟨hl, hnew, ⟨c', i, hv, heq, hf, -, hbufs, hdisk⟩ | ⟨hv, heq⟩⟩
    · refine ⟨⟨c', s.pending, some (i, dev, blockno)⟩, by rw [Watched.apply, heq, hl]; rfl, h.busy hf hbufs hdisk (fun j d b hj => ?_)⟩
      obtain ⟨rfl, rfl, rfl⟩ : i = j ∧ dev = d ∧ blockno = b := by simpa using hj
      exact ⟨hv, hd, hb⟩
    · obtain ⟨hw, hr⟩ := hop hl i hv
      have hkey : (s.cache.bufs i).dirty = true → ¬ ((s.cache.bufs i).dev = dev ∧ (s.cache.bufs i).blockno = blockno) :=
        fun hd => hnew i (h.marked i hd).1
      have hread : (s.cache.bwriteIo w i).readIo r dev blockno = (s.cache.bwriteIo w i).disk dev blockno := by
        cases r with
        | ok => rfl
        | failed left => exact hr.trans (bwriteIo_disk s.cache w hkey).symm
      have hclean : ((s.cache.bwriteIo w i).bufs i).dirty = false := by
        cases hd : (s.cache.bufs i).dirty with
        | false => rw [(Watched.wrote_clean hd w).1, hd]
        | true => rw [hw hd, (Watched.wrote_ok hd).1, update_self]
      obtain ⟨-, -, -, -, d, hd⟩ := bwriteIo_frame s.cache w i
      refine ⟨_, Watched.apply_miss hl hv heq, (h.write w i).refill hclean (fun j hj => ?_) hf ?_ hdisk⟩
      · dsimp only at hj ⊢
        set c := bwriteIo_buf s.cache w i j
        rw [c.2.2] at hj
        rw [c.1, c.2.1]
        exact hnew j hj
      · rw [hbufs, hread]
        dsimp only
        rw [hd, update_idem]
    · exact ⟨⟨s.cache, s.pending, none⟩, by rw [Watched.apply, heq, hl, hv]; rfl, h.filled, h.marked, h.clean, h.cached, nofun⟩
  | modify i data =>
    by_cases hv : (s.cache.bufs i).valid = true
    · exact ⟨_, by rw [Watched.apply, if_pos hv], h.modify hv data⟩
    · exact ⟨⟨s.cache, s.pending, none⟩, by rw [Watched.apply, if_neg hv], h.filled, h.marked, h.clean, h.cached, nofun⟩
  | bwrite i a => exact ⟨_, rfl, h.write a i⟩
  | brelse i =>
    exact ⟨_, rfl, h.busy (h.filled.setBuf (b := { s.cache.bufs i with busy := false }) rfl rfl rfl) rfl rfl nofun⟩

/-- **A read that fails, or an eviction whose write fails, does not**: the caller has wrong bytes, or the modification is in
no buffer any more. -/
theorem Watched.Good.answered {s' : Watched} (h : s.Good) (op : RwOp) (heq : s.apply op = some s') (hs : s'.Right) :
    s.Answered op := by
  cases op with
  | modify i data => trivial
  | bwrite i a => trivial
  | brelse i => trivial
  | bread dev blockno w r =>
    intro hl i hv
    rcases h.filled.bread dev blockno w r with ⟨c', i', hl', -⟩ | ⟨-, hnew, ⟨c', i', hv', hread, hf, -, hbufs, hdisk⟩ | ⟨hv', -⟩⟩
    · rw [hl] at hl'; cases hl'
    · obtain rfl := Option.some.inj (hv.symm.trans hv')
      obtain rfl := Option.some.inj ((Watched.apply_miss hl hv hread).symm.trans heq)
      have hself : c'.bufs i = ⟨dev, blockno, true, false, true, (s.cache.bwriteIo w i).readIo r dev blockno⟩ := by
        rw [hbufs, update_self]
      refine ⟨fun hd => ?_, ?_⟩
      · cases w with
        | ok => rfl
        | failed left =>
          obtain ⟨hvi, hp⟩ := h.marked i hd
          obtain ⟨j, hvj, hdev, hblk, -⟩ := hs.2 _ _ _ hp
          dsimp only at hvj hdev hblk
          by_cases hji : j = i
          · subst hji
            rw [hself] at hdev hblk
            exact absurd ⟨hdev.symm, hblk.symm⟩ (hnew j hvi)
          · rw [hbufs, update_of_ne hji] at hvj hdev hblk
            exact absurd (h.filled.keys hvj hvi hdev hblk) hji
      · have hnone : s.pending dev blockno = none := by
          by_contra hp
          obtain ⟨j, hdj, hk⟩ := h.cached dev blockno hp
          exact hnew j (h.marked j hdj).1 hk
        have hwrote : s.wrote w i dev blockno = none := by
          unfold Watched.wrote
          cases w with
          | failed left => exact hnone
          | ok =>
            dsimp only
            split
            · rw [update_pair, hnone, ite_self]
            · exact hnone
        have hdata := (hs.1 i dev blockno rfl).2.2
        unfold Watched.content at hdata
        dsimp only at hdata
        rw [hself, hwrote, hdisk] at hdata
        have hdata' : (s.cache.bwriteIo w i).readIo r dev blockno = s.cache.disk dev blockno :=
          hdata.trans (bwriteIo_disk s.cache w (fun hd => hnew i (h.marked i hd).1))
        cases r with
        | ok => rfl
        | failed left => exact hdata'
    · rw [hv] at hv'; cases hv'

/-- **When device errors do no harm.**  From `buf_init` on: in every state of a run the buffer `bread` has returned holds the
content of its block and every modification that is not written is cached and marked, exactly when on every miss the
write of the buffer to be recycled succeeds, if it is dirty, and the read succeeds or leaves the block's own bytes. -/
theorem contents_right_iff (c : Cache) (ops : List RwOp) :
    Always watchStep (fun s => ∃ s', s = some s' ∧ s'.Right) (some ⟨c.bufInit, fun _ _ => none, none⟩) ops ↔
      ∀ pre op post, ops = pre ++ op :: post →
        ∀ s, (run watchStep (some ⟨c.bufInit, fun _ _ => none, none⟩) pre).1 = some s → s.Answered op := by
  obtain ⟨-, -, -, hflags⟩ := bufInit_spec c
  refine always_iff (I := fun s : Option Watched => ∃ s', s = some s' ∧ s'.Good)
    (C := fun s op => ∀ s', s = some s' → s'.Answered op) ?_ ?_ ?_ ops _
    ⟨_, rfl, bufInit_filled c, fun i hd => absurd (hd.symm.trans (hflags i).2.1) (by decide),
      fun i hv => absurd (hv.symm.trans (hflags i).1) (by decide),
      fun _ _ hp => absurd rfl hp, nofun⟩
  · rintro s ⟨s', rfl, h⟩
    exact ⟨s', rfl, h.right⟩
  · rintro s op ⟨s1, rfl, h⟩ ⟨s2, h2, hs⟩ s' hs'
    obtain rfl := Option.some.inj hs'
    exact h.answered op h2 hs
  · rintro s op ⟨s1, rfl, h⟩ hop
    obtain ⟨s2, heq, h2⟩ := h.apply op (hop s1 rfl)
    exact ⟨s2, heq, h2⟩

local instance : NeZero NBUF := ⟨by decide⟩

/-- Block 1 is modified, with the answer `a` to its write, and released; then fifteen other blocks are read and held. -/
def modifyThenRead (a : Rw) : List RwOp :=
  [.bread 0 1 .ok .ok, .modify 0 (fun _ => 9), .bwrite 0 a, .brelse 0] ++
    (List.range 15).map (fun n => .bread 0 (UInt32.ofNat (n + 2)) .ok .ok)

def failedRead : List RwOp := modifyThenRead .ok ++ [.bread 0 17 .ok (.failed (fun _ => 9))]

def failedWrite : List RwOp := modifyThenRead (.failed (fun _ => 0)) ++ [.bread 0 17 (.failed (fun _ => 0)) .ok]

/-- **Errors of the device are lost**: after `failedRead` the caller has the bytes of another block, and after `failedWrite` no
buffer holds the modification of block 1, which the device does not have either. -/
theorem device_errors_lost :
    ¬ Always watchStep (fun s => ∃ s', s = some s' ∧ s'.Right) (some ⟨Sys.zeroCache.bufInit, fun _ _ => none, none⟩) failedRead ∧
    ¬ Always watchStep (fun s => ∃ s', s = some s' ∧ s'.Right) (some ⟨Sys.zeroCache.bufInit, fun _ _ => none, none⟩) failedWrite := by
  constructor
  · intro h
    have hgot : (run watchStep (some ⟨zeroCache.bufInit, fun _ _ => none, none⟩) failedRead).1.any (fun s =>
        s.got == some (⟨0, by decide⟩, 0, 17) && (s.cache.bufs ⟨0, by decide⟩).data ⟨0, by decide⟩ == 9 &&
        s.content 0 17 ⟨0, by decide⟩ == 0) = true := by decide +kernel
    obtain ⟨s, hs, hright⟩ := h failedRead (prefix_refl _)
    rw [hs] at hgot
    simp only [Option.any_some, and_eq_true, beq_iff_eq] at hgot
    obtain ⟨⟨h1, h2⟩, h3⟩ := hgot
    rw [(hright.1 _ _ _ h1).2.2, h3] at h2
    exact absurd h2 (by decide)
  · intro h
    have hlost : (run watchStep (some ⟨zeroCache.bufInit, fun _ _ => none, none⟩) failedWrite).1.any (fun s =>
        (s.pending 0 1).isSome && (List.finRange NBUF).all (fun i => (s.cache.bufs i).blockno != 1)) = true := by decide +kernel
    obtain ⟨s, hs, hright⟩ := h failedWrite (prefix_refl _)
    rw [hs] at hlost
    simp only [Option.any_some, and_eq_true, all_eq_true, bne_iff_ne, ne_eq] at hlost
    obtain ⟨data, hp⟩ := Option.isSome_iff_exists.1 hlost.1
    obtain ⟨i, -, -, hblk, -⟩ := hright.2 0 1 data hp
    exact hlost.2 i (mem_finRange i) hblk

end Cache
end Noxis
