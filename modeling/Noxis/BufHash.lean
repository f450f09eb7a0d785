import Noxis.BufCoherent
/-!
# BufHash — the hash chains when `balloc` is used

`balloc` links a buffer that it has not marked valid, and looks for no other buffer of the block.  A buffer that is linked
and not valid is not unlinked when it is taken over: its old chain then runs into the new one, or into itself.
`soundness_iff` says exactly which calls do this.
-/
namespace Noxis

open Option Function
namespace Cache

open Linked

/-- The calls of the buffer interface, with the answers of `blk_rw`; `modify` is a caller that fills a buffer and marks it. -/
inductive IoOp where
  | bread (dev blockno : UInt32) (w r : Rw)
  | balloc (dev blockno : UInt32) (w : Rw) (flush : Bid → Rw) (w' : Rw)
  | modify (i : Bid) (data : Block)
  | bwrite (i : Bid) (a : Rw)
  | brelse (i : Bid)

def apply (c : Cache) : IoOp → Option (Cache × Option Bid)
  | .bread dev blockno w r => c.breadIo dev blockno w r
  | .balloc dev blockno w flush w' => c.ballocIo dev blockno w flush w'
  | .modify i data => some (c.setBuf i { c.bufs i with data := data, dirty := true }, none)
  | .bwrite i a => some (c.bwriteIo a i, none)
  | .brelse i => some (c.brelse i, none)

def ioStep : Option Cache → IoOp → Option Cache × Option Bid
  | none, _ => (none, none)
  | some c, op =>
    match c.apply op with
    | none => (none, none)
    | some (c', r) => (some c', r)

/-- Every chain ends and has no buffer twice, a buffer is linked in the chain of its block only, no block has two linked
buffers, and every lookup ends. -/
def Sound (c : Cache) : Prop :=
  ∃ C : Fin HASH_SIZE → List Bid, (∀ k, Chain c.hashNext (c.hash k) (C k)) ∧ (∀ k, (C k).Nodup) ∧
    (∀ k i, i ∈ C k → hashOf (c.bufs i).dev (c.bufs i).blockno = k) ∧
    (∀ k k' i j, i ∈ C k → j ∈ C k' → (c.bufs i).dev = (c.bufs j).dev → (c.bufs i).blockno = (c.bufs j).blockno → i = j) ∧
    ∀ dev blockno, c.hashLookup dev blockno ≠ none

def Linked (c : Cache) (i : Bid) : Prop := ∃ k l, Chain c.hashNext (c.hash k) l ∧ i ∈ l

/-- What a call asks of the buffer it takes over: that it is valid, so that it is unlinked, or not linked; and of a
`balloc` that no other buffer is linked for the block. -/
def Keeps (c : Cache) : IoOp → Prop
  | .bread dev blockno _ _ => c.hashLookup dev blockno = some none → ∀ i, c.victim = some i →
      (c.bufs i).valid = true ∨ ¬ c.Linked i
  | .balloc dev blockno _ _ _ => ∀ i, c.victim = some i → ((c.bufs i).valid = true ∨ ¬ c.Linked i) ∧
      ∀ j, j ≠ i → c.Linked j → ¬ ((c.bufs j).dev = dev ∧ (c.bufs j).blockno = blockno)
  | _ => True

/-! ## The invariant -/

def Sole (c : Cache) (C : Fin HASH_SIZE → List Bid) : Prop :=
  ∀ k k' i j, i ∈ C k → j ∈ C k' → (c.bufs i).dev = (c.bufs j).dev → (c.bufs i).blockno = (c.bufs j).blockno → i = j

variable {c c' : Cache} {C : Fin HASH_SIZE → List Bid}

theorem Sole.congr (h : c.Sole C)
    (hb : ∀ i, (c'.bufs i).dev = (c.bufs i).dev ∧ (c'.bufs i).blockno = (c.bufs i).blockno) : c'.Sole C := by
  intro k k' i j hi hj hd hbl
  rw [(hb i).1, (hb j).1] at hd
  rw [(hb i).2, (hb j).2] at hbl
  exact h k k' i j hi hj hd hbl

def Tidy (c : Cache) : Prop := ∃ L C, c.Wired L C ∧ c.Sole C

variable {L : List Bid}

theorem Wired.linked_iff (h : c.Wired L C) (i : Bid) : c.Linked i ↔ ∃ k, i ∈ C k := by
  constructor
  · rintro ⟨k, l, hl, hi⟩
    exact ⟨k, (h.chains.chain k).unique hl ▸ hi⟩
  · rintro ⟨k, hi⟩
    exact ⟨k, C k, h.chains.chain k, hi⟩

theorem Tidy.sound (h : c.Tidy) : c.Sound := by
  obtain ⟨L, C, hw, hs⟩ := h
  refine ⟨C, hw.chains.chain, hw.chains.nodup, hw.home, hs, fun dev blockno hn => ?_⟩
  rw [hw.chains.lookup] at hn
  cases hn

/-! ## A buffer taken over -/

theorem Wired.of_sound (h : c.Wired L C) (hs : c.Sound) : c.Sole C := by
  obtain ⟨C', hch, -, -, hsole, -⟩ := hs
  intro k k' i j hi hj
  refine hsole k k' i j ?_ ?_
  · exact (h.chains.chain k).unique (hch k) ▸ hi
  · exact (h.chains.chain k').unique (hch k') ▸ hj

variable {i : Bid} {b : Buf}

/-- A buffer that is not linked afterwards for a block of another linked one: the blocks of the linked buffers stay
distinct exactly when no other linked buffer has the new block. -/
theorem Sole.takeOver {C' : Fin HASH_SIZE → List Bid} (h : c.Sole C) (hb : c'.bufs = update c.bufs i b)
    (hmem : ∀ k j, j ∈ C' k ↔ (j = i ∧ k = hashOf b.dev b.blockno) ∨ (j ≠ i ∧ j ∈ C k)) :
    c'.Sole C' ↔ ∀ j, j ≠ i → (∃ k, j ∈ C k) → ¬ ((c.bufs j).dev = b.dev ∧ (c.bufs j).blockno = b.blockno) := by
  have hself : c'.bufs i = b := by rw [hb, update_self]
  have hoth : ∀ j, j ≠ i → c'.bufs j = c.bufs j := fun j hj => by rw [hb, update_of_ne hj]
  constructor
  · rintro hs j hj ⟨k, hk⟩ ⟨hd, hbl⟩
    refine hj (hs k (hashOf b.dev b.blockno) j i ((hmem k j).2 (.inr ⟨hj, hk⟩)) ((hmem _ i).2 (.inl ⟨rfl, rfl⟩)) ?_ ?_)
    · rw [hself, hoth j hj, hd]
    · rw [hself, hoth j hj, hbl]
  · intro hnew k k' j j' hj hj' hd hbl
    rcases (hmem k j).1 hj with ⟨rfl, -⟩ | ⟨hne, hj⟩
    · rcases (hmem k' j').1 hj' with ⟨rfl, -⟩ | ⟨hne', hj'⟩
      · rfl
      · rw [hself, hoth j' hne'] at hd hbl
        exact absurd ⟨hd.symm, hbl.symm⟩ (hnew j' hne' ⟨k', hj'⟩)
    rcases (hmem k' j').1 hj' with ⟨rfl, -⟩ | ⟨hne', hj'⟩
    · rw [hself, hoth j hne] at hd hbl
      exact absurd ⟨hd, hbl⟩ (hnew j hne ⟨k, hj⟩)
    · rw [hoth j hne, hoth j' hne'] at hd hbl
      exact h k k' j j' hj hj' hd hbl

/-- **A linked buffer that is not valid spoils the chains**: its old chain still leads to it. -/
theorem Wired.takeOver_stale (h : c.Wired L C)
    (hv : (c.bufs i).valid = false) {k : Fin HASH_SIZE} (hi : i ∈ C k) (heq : c.takeOver i b = some c') : ¬ c'.Sound := by
  rintro ⟨C', hch, hnd, hhome, -⟩
  obtain ⟨l1, l2, hni, hl, -⟩ := List.exists_erase_eq hi
  have hold := h.chains.chain k
  rw [hl] at hold
  -- the links afterwards
  unfold Cache.takeOver at heq
  rw [hv] at heq
  obtain rfl := some.inj heq
  obtain ⟨r1, r2, r3, -⟩ := lruRemove_frame (c.setBuf i b) i
  set r := (c.setBuf i b).lruRemove i
  obtain ⟨f1, f2, f3, -⟩ := lruInsertHead_frame (r.hashInsert i) i
  have hbufs : r.bufs = update c.bufs i b := r1
  have hself : r.bufs i = b := by rw [hbufs, update_self]
  have hnext : (r.hashInsert i).hashNext = update c.hashNext i (c.hash (hashOf b.dev b.blockno)) := by
    unfold hashInsert
    dsimp only
    rw [hself, r2, r3]
    rfl
  have hhash : (r.hashInsert i).hash = update c.hash (hashOf b.dev b.blockno) (some i) := by
    unfold hashInsert
    dsimp only
    rw [hself, r2]
    rfl
  rw [f2, f3, hnext, hhash] at hch
  have hkey : ∀ k', i ∈ C' k' → hashOf b.dev b.blockno = k' := fun k' hk' => by
    have := hhome k' i hk'
    rwa [f1, show (r.hashInsert i).bufs = r.bufs from rfl, hself] at this
  have hsame : ∀ a ∈ l1, update c.hashNext i (c.hash (hashOf b.dev b.blockno)) a = c.hashNext a :=
    fun a ha => update_of_ne (fun (hai : a = i) => hni (hai ▸ ha)) _ _
  by_cases hk : k = hashOf b.dev b.blockno
  · -- the chain starts with `i` and comes back to it
    have hnew := hch k
    rw [← hk, update_self] at hnew
    cases hC : C' k with
    | nil => rw [hC] at hnew; cases hnew
    | cons a l =>
      rw [hC] at hnew
      obtain rfl : i = a := some.inj hnew.1
      have htail := hnew.2
      rw [update_self] at htail
      rw [← hk] at hsame
      have hil : i ∈ l := Chain.reaches hold hsame htail
      have := hnd k
      rw [hC] at this
      exact (List.nodup_cons.1 this).1 hil
  · -- the old chain runs into the new one
    have hnew := hch k
    rw [update_of_ne hk] at hnew
    exact hk (hkey k (Chain.reaches hold hsame hnew)).symm

/-- **Exactly when a buffer can be taken over.** -/
theorem Tidy.takeOver (h : c.Tidy) (i : Bid) (b : Buf) :
    let T := ((c.bufs i).valid = true ∨ ¬ c.Linked i) ∧
      ∀ j, j ≠ i → c.Linked j → ¬ ((c.bufs j).dev = b.dev ∧ (c.bufs j).blockno = b.blockno)
    (T → ∃ c', c.takeOver i b = some c' ∧ c'.Tidy) ∧ ∀ c', c.takeOver i b = some c' → c'.Sound → T := by
  obtain ⟨L, C, hw, hs⟩ := h
  simp only [hw.linked_iff]
  constructor
  · rintro ⟨hi, hnew⟩
    obtain ⟨c', C', heq, hw', hb, -, hmem⟩ := hw.takeOver (hi.imp_right (fun hn k hk => hn ⟨k, hk⟩)) b
    exact ⟨c', heq, _, C', hw', (hs.takeOver hb hmem).2 hnew⟩
  · intro c' heq hsound
    have hi : (c.bufs i).valid = true ∨ ¬ ∃ k, i ∈ C k := by
      cases hv : (c.bufs i).valid with
      | true => exact .inl rfl
      | false => exact .inr (fun ⟨k, hk⟩ => hw.takeOver_stale hv hk heq hsound)
    obtain ⟨c'', C', heq', hw', hb, -, hmem⟩ := hw.takeOver (hi.imp_right (fun hn k hk => hn ⟨k, hk⟩)) b
    obtain rfl := some.inj (heq.symm.trans heq')
    exact ⟨hi, (hs.takeOver hb hmem).1 (hw'.of_sound hsound)⟩

/-! ## One call -/

theorem Tidy.setBuf (h : c.Tidy) (hdev : b.dev = (c.bufs i).dev)
    (hblk : b.blockno = (c.bufs i).blockno) (hv : b.valid = (c.bufs i).valid) : (c.setBuf i b).Tidy := by
  obtain ⟨L, C, hw, hs⟩ := h
  refine ⟨L, C, hw.setBuf hdev hblk (fun hb => hv ▸ hb), hs.congr (fun j => ?_)⟩
  by_cases hj : j = i
  · subst hj; rw [show (c.setBuf j b).bufs j = b from update_self ..]; exact ⟨hdev, hblk⟩
  · rw [show (c.setBuf i b).bufs j = c.bufs j from update_of_ne hj ..]; exact ⟨rfl, rfl⟩

theorem bwriteIo_buf (c : Cache) (a : Rw) (i j : Bid) :
    let r := (c.bwriteIo a i).bufs j
    r.dev = (c.bufs j).dev ∧ r.blockno = (c.bufs j).blockno ∧ r.valid = (c.bufs j).valid := by
  obtain ⟨-, -, -, -, d, hb⟩ := bwriteIo_frame c a i
  rw [hb]
  by_cases hj : j = i
  · subst hj; rw [update_self]; exact ⟨rfl, rfl, rfl⟩
  · rw [update_of_ne hj]; exact ⟨rfl, rfl, rfl⟩

theorem bwriteIo_linked (c : Cache) (a : Rw) (i j : Bid) : (c.bwriteIo a i).Linked j ↔ c.Linked j := by
  obtain ⟨-, -, hh, hn, -⟩ := bwriteIo_frame c a i
  unfold Linked
  rw [hh, hn]

theorem Tidy.bwriteIo (h : c.Tidy) (a : Rw) (i : Bid) : (c.bwriteIo a i).Tidy := by
  obtain ⟨L, C, hw, hs⟩ := h
  exact ⟨L, C, hw.bwriteIo a i, hs.congr (fun j => ⟨(bwriteIo_buf c a i j).1, (bwriteIo_buf c a i j).2.1⟩)⟩

theorem Tidy.victim (h : c.Tidy) (w : Rw) (i : Bid) (b : Buf) :
    let T := ((c.bufs i).valid = true ∨ ¬ c.Linked i) ∧
      ∀ j, j ≠ i → c.Linked j → ¬ ((c.bufs j).dev = b.dev ∧ (c.bufs j).blockno = b.blockno)
    let r := (c.bwriteIo w i).takeOver i b
    (T → ∃ c', r = some c' ∧ c'.Tidy) ∧ ∀ c', r = some c' → c'.Sound → T := by
  have ht := (h.bwriteIo w i).takeOver i b
  simp only [bwriteIo_linked, (bwriteIo_buf c w i _).1, (bwriteIo_buf c w i _).2.1, (bwriteIo_buf c w i _).2.2] at ht
  exact ht

/-- **A call that keeps to the condition keeps the links in order.** -/
theorem Tidy.apply (h : c.Tidy) (op : IoOp) (hop : c.Keeps op) : ∃ c' r, c.apply op = some (c', r) ∧ c'.Tidy := by
  obtain ⟨L, C, hw, hs⟩ := h
  have h : c.Tidy := ⟨L, C, hw, hs⟩
  cases op with
  | bread dev blockno w r =>
    rcases hw.lookup dev blockno with ⟨i, hl, hi, hd, hb⟩ | ⟨hl, hnew⟩
    · rw [Cache.apply, breadIo_hit hl]
      obtain ⟨hw', -, hbufs⟩ := hw.hitIo r hi
      refine ⟨_, _, rfl, _, C, hw', hs.congr (fun j => ?_)⟩
      rw [hbufs]
      by_cases hj : j = i
      · subst hj; rw [update_self]; dsimp only; split <;> exact ⟨rfl, rfl⟩
      · rw [update_of_ne hj]; exact ⟨rfl, rfl⟩
    · rw [Cache.apply, breadIo_miss hw.lru hl]
      cases hv : c.victim with
      | none => exact ⟨c, none, rfl, h⟩
      | some i =>
        obtain ⟨c', heq, ht⟩ := (h.victim w i ⟨dev, blockno, true, false, true, (c.bwriteIo w i).readIo r dev blockno⟩).1
          ⟨hop hl i hv, fun j _ hj => by obtain ⟨k, hk⟩ := (hw.linked_iff j).1 hj; exact hnew k j hk⟩
        exact ⟨c', some i, by simp only [heq]; rfl, ht⟩
  | balloc dev blockno w flush w' =>
    rw [Cache.apply, ballocIo_eq hw.lru]
    cases hv : c.victim with
    | none => exact ⟨c, none, rfl, h⟩
    | some i =>
      obtain ⟨c', heq, ht⟩ := (h.victim w i ⟨dev, blockno, false, false, true, fun _ => 0⟩).1 (hop i hv)
      exact ⟨c', some i, by simp only [heq]; rfl, ht⟩
  | modify i data => exact ⟨_, none, rfl, h.setBuf rfl rfl rfl⟩
  | bwrite i a => exact ⟨_, none, rfl, h.bwriteIo a i⟩
  | brelse i => exact ⟨_, none, rfl, h.setBuf rfl rfl rfl⟩

/-- **A call that does not keep to the condition spoils the chains**, or does not end. -/
theorem Tidy.keeps_of_sound {r : Option Bid} (h : c.Tidy) (op : IoOp) (heq : c.apply op = some (c', r))
    (hs : c'.Sound) : c.Keeps op := by
  obtain ⟨L, C, hw, hsole⟩ := h
  have h : c.Tidy := ⟨L, C, hw, hsole⟩
  cases op with
  | bread dev blockno w r' =>
    intro hl i hv
    rw [Cache.apply, breadIo_miss hw.lru hl, hv] at heq
    obtain ⟨c1, hc1, he⟩ := map_eq_some_iff.1 heq
    obtain ⟨rfl, -⟩ := Prod.mk.inj he
    exact ((h.victim w i _).2 c1 hc1 hs).1
  | balloc dev blockno w flush w' =>
    intro i hv
    rw [Cache.apply, ballocIo_eq hw.lru, hv] at heq
    obtain ⟨c1, hc1, he⟩ := map_eq_some_iff.1 heq
    obtain ⟨rfl, -⟩ := Prod.mk.inj he
    exact (h.victim w i _).2 c1 hc1 hs
  | modify i data => trivial
  | bwrite i a => trivial
  | brelse i => trivial

/-! ## Every run -/

theorem bufInit_tidy (c : Cache) : c.bufInit.Tidy :=
  ⟨_, _, bufInit_wired c, fun _ _ _ _ hi => (by cases hi)⟩

/-- **When the hash chains stay sound.**  From `buf_init` on, whatever `blk_rw` answers: every state of a run has sound
chains, no call having hung, exactly when every call that takes a buffer over finds it valid or not linked, and
every `balloc` finds no other buffer linked for its block. -/
theorem soundness_iff (c : Cache) (ops : List IoOp) :
    Always ioStep (fun s => ∃ c', s = some c' ∧ c'.Sound) (some c.bufInit) ops ↔
      ∀ pre op post, ops = pre ++ op :: post → ∀ c', (run ioStep (some c.bufInit) pre).1 = some c' → c'.Keeps op := by
  refine always_iff (I := fun s : Option Cache => ∃ c', s = some c' ∧ c'.Tidy)
    (C := fun s op => ∀ c', s = some c' → c'.Keeps op)
    ?_ ?_ ?_ ops _ ⟨_, rfl, bufInit_tidy c⟩
  · rintro s ⟨c', rfl, h⟩
    exact ⟨c', rfl, h.sound⟩
  · rintro s op ⟨c1, rfl, h⟩ ⟨c2, h2, hs⟩ c' hc'
    obtain rfl := some.inj hc'
    rw [ioStep] at h2
    cases ha : c1.apply op with
    | none => rw [ha] at h2; cases h2
    | some p =>
      obtain ⟨c3, r⟩ := p
      rw [ha] at h2
      obtain rfl := some.inj h2
      exact h.keeps_of_sound op ha hs
  · rintro s op ⟨c1, rfl, h⟩ hop
    obtain ⟨c2, r, ha, h2⟩ := h.apply op (hop c1 rfl)
    refine ⟨c2, ?_, h2⟩
    rw [ioStep, ha]

/-- A buffer of `balloc` is released without having become valid; fifteen reads make it the oldest, the next one takes it over
for another block of its chain, and a lookup in that chain follows. -/
def staleLink : List IoOp :=
  .balloc 0 0 .ok (fun _ => .ok) .ok :: .brelse ⟨0, by decide⟩ ::
    (List.range 16).map (fun n => .bread 0 (UInt32.ofNat (n + 1)) .ok .ok) ++ [.bread 0 24 .ok .ok]

def ballocTwice : List IoOp := [.balloc 0 5 .ok (fun _ => .ok) .ok, .balloc 0 5 .ok (fun _ => .ok) .ok]

/-- **`balloc` spoils the hash chains**: after `staleLink` a lookup never ends, and after `ballocTwice` two buffers of one block
are in one chain. -/
theorem balloc_spoils_chains : ¬ Always ioStep (fun s => ∃ c', s = some c' ∧ c'.Sound) (some Sys.zeroCache.bufInit) staleLink ∧
    (run ioStep (some Sys.zeroCache.bufInit) staleLink).1 = none ∧
    (run ioStep (some Sys.zeroCache.bufInit) ballocTwice).1.any (fun c =>
      c.hash ⟨5, by decide⟩ == some ⟨1, by decide⟩ && c.hashNext ⟨1, by decide⟩ == some ⟨0, by decide⟩ &&
      (c.bufs ⟨0, by decide⟩).dev == (c.bufs ⟨1, by decide⟩).dev &&
      (c.bufs ⟨0, by decide⟩).blockno == (c.bufs ⟨1, by decide⟩).blockno) = true := by
  have hhang : (run ioStep (some Sys.zeroCache.bufInit) staleLink).1 = none := isNone_iff_eq_none.1 (by decide +kernel)
  refine ⟨fun h => ?_, hhang, by decide +kernel⟩
  obtain ⟨c', hc', -⟩ := h staleLink (List.prefix_refl _)
  rw [hhang] at hc'
  cases hc'

end Cache
end Noxis
