import Noxis.Bytes
import Noxis.HeapFrame
/-!
# HeapBytes — the bytes of the kernel heap, for the owners of its payloads

`Kheap` keeps a word at each multiple of 8.  Here the same memory is seen as bytes (`bytes`), which an owner stores one by one
(`writeBytes`); `Owned h l` says that the heap is in order with the allocations `l`, addresses and sizes.  An owner's stores keep
it, and neither they nor `kmalloc` and `kfree` change a byte of another allocation.
-/
namespace Noxis

open List Function Nat
namespace Kheap

/-! ## Bytes -/

def bytes (h : Kheap) (y : Nat) : UInt8 := UInt8.ofNat (h.byte y)

def putByte (w k v : Nat) : Nat := w / 256 ^ (k + 1) * 256 ^ (k + 1) + v * 256 ^ k + w % 256 ^ k

def setByte (h : Kheap) (y : Nat) (v : UInt8) : Kheap := h.set (y / 8 * 8) (putByte (h.mem (y / 8 * 8)) (y % 8) v.toNat)

variable {w k v a x : Nat}

theorem putByte_self (hv : v < 256) : putByte w k v / 256 ^ k % 256 = v := by
  have hk : 0 < 256 ^ k := by positivity
  have hlow : w % 256 ^ k < 256 ^ k := mod_lt _ hk
  have hdiv : putByte w k v / 256 ^ k = w / 256 ^ (k + 1) * 256 + v := by
    unfold putByte
    rw [show w / 256 ^ (k + 1) * 256 ^ (k + 1) + v * 256 ^ k + w % 256 ^ k
        = w % 256 ^ k + 256 ^ k * (w / 256 ^ (k + 1) * 256 + v) by ring,
      add_mul_div_left _ _ hk, div_eq_of_lt hlow, zero_add]
  rw [hdiv, add_comm, add_mul_mod_self_right, mod_eq_of_lt hv]

theorem putByte_ne {j : Nat} (hv : v < 256) (hj : j ≠ k) : putByte w k v / 256 ^ j % 256 = w / 256 ^ j % 256 := by
  have hk : 0 < 256 ^ k := by positivity
  have hlow : w % 256 ^ k < 256 ^ k := Nat.mod_lt _ hk
  rcases Nat.lt_or_ge j k with hjk | hjk
  · -- below `k` the bytes are those of the remainder
    have hmod : putByte w k v % 256 ^ k = w % 256 ^ k := by
      unfold putByte
      rw [show w / 256 ^ (k + 1) * 256 ^ (k + 1) + v * 256 ^ k + w % 256 ^ k
        = w % 256 ^ k + 256 ^ k * (w / 256 ^ (k + 1) * 256 + v) by ring, Nat.add_mul_mod_self_left, Nat.mod_mod]
    have hbyte : ∀ x, x / 256 ^ j % 256 = x % 256 ^ k / 256 ^ j % 256 := by
      intro x
      obtain ⟨d, rfl⟩ := Nat.exists_eq_add_of_lt hjk
      rw [show j + d + 1 = j + (d + 1) by omega, Nat.pow_add, Nat.mod_mul_right_div_self, Nat.pow_succ, mul_comm,
        Nat.mod_mul_right_mod]
    rw [hbyte, hmod, ← hbyte]
  · -- above `k` they are those of the quotient
    have hdiv : putByte w k v / 256 ^ (k + 1) = w / 256 ^ (k + 1) := by
      unfold putByte
      have hrest : v * 256 ^ k + w % 256 ^ k < 256 ^ (k + 1) := by
        rw [Nat.pow_succ]
        have : v * 256 ^ k ≤ 255 * 256 ^ k := Nat.mul_le_mul_right _ (by omega)
        omega
      rw [add_assoc, add_comm, Nat.add_mul_div_right _ _ (by positivity), Nat.div_eq_of_lt hrest, zero_add]
    obtain ⟨d, rfl⟩ := Nat.exists_eq_add_of_lt (show k < j by omega)
    rw [show k + d + 1 = (k + 1) + d by omega, Nat.pow_add, ← Nat.div_div_eq_div_mul, ← Nat.div_div_eq_div_mul, hdiv]

theorem bytes_setByte (h : Kheap) (y : Nat) (v : UInt8) : (h.setByte y v).bytes = update h.bytes y v := by
  funext z
  have hv := v.toNat_lt
  unfold bytes byte setByte set
  dsimp only
  by_cases hw : z / 8 * 8 = y / 8 * 8
  · rw [hw, update_self]
    by_cases hz : z = y
    · subst hz
      rw [putByte_self hv, update_self]
      simp
    · rw [putByte_ne hv (by omega), update_of_ne hz, hw]
  · rw [update_of_ne hw, update_of_ne (by omega : z ≠ y)]

def writeBytes (h : Kheap) (a : Nat) (f : Nat → UInt8) : Nat → Kheap
  | 0 => h
  | n + 1 => (h.writeBytes a f n).setByte (a + n) (f n)

theorem bytes_writeBytes (h : Kheap) (a : Nat) (f : Nat → UInt8) : ∀ (n x : Nat),
    (h.writeBytes a f n).bytes x = if a ≤ x ∧ x < a + n then f (x - a) else h.bytes x
  | 0, x => by rw [writeBytes, if_neg (by omega)]
  | n + 1, x => by
    rw [writeBytes, bytes_setByte]
    by_cases hx : x = a + n
    · subst hx
      rw [update_self, if_pos (by omega), Nat.add_sub_cancel_left]
    · rw [update_of_ne hx, bytes_writeBytes h a f n]
      by_cases hin : a ≤ x ∧ x < a + n
      · rw [if_pos hin, if_pos (by omega)]
      · rw [if_neg hin, if_neg (by omega)]

def put64 (h : Kheap) (a v : Nat) : Kheap := h.writeBytes a (fun i => UInt8.ofNat (v / 256 ^ i)) 8
def get64 (h : Kheap) (a : Nat) : Nat := leRead h.bytes a 8

theorem bytes_put64 (h : Kheap) (a v : Nat) : (h.put64 a v).bytes = leWrite h.bytes a 8 v := by
  funext x
  rw [put64, bytes_writeBytes]
  rfl

theorem bytes_put64_of_ne (h : Kheap) (hx : ¬ (a ≤ x ∧ x < a + 8)) : (h.put64 a v).bytes x = h.bytes x := by
  rw [put64, bytes_writeBytes, if_neg hx]

theorem get64_put64 (h : Kheap) (a : Nat) (hv : v < 2 ^ 64) : (h.put64 a v).get64 a = v := by
  rw [get64, bytes_put64, leRead_leWrite]
  exact mod_eq_of_lt hv

variable {h h' : Kheap}

theorem get64_congr (hb : ∀ x, a ≤ x → x < a + 8 → h'.bytes x = h.bytes x) : h'.get64 a = h.get64 a := leRead_congr _ _ 8 a hb

/-! ## Allocations -/

theorem length_le_heap {l : List Nat} (hnd : l.Nodup) (hb : ∀ o ∈ l, heapBase < o ∧ o < heapEnd) : l.length ≤ heapSize := by
  rw [← toFinset_card_of_nodup hnd]
  calc l.toFinset.card ≤ (Finset.Ico heapBase heapEnd).card := Finset.card_le_card (fun o ho => by
        have := hb o (mem_toFinset.1 ho)
        exact Finset.mem_Ico.2 ⟨by omega, this.2⟩)
    _ = heapSize := by rw [card_Ico]; unfold heapEnd; omega

def Kept (l : List (Nat × Nat)) (h h' : Kheap) : Prop := ∀ p m, (p, m) ∈ l → ∀ x, p ≤ x → x < p + m → h'.bytes x = h.bytes x

variable {l : List (Nat × Nat)}

theorem Kept.trans {h1 h2 h3 : Kheap} (h : Kept l h1 h2) (h' : Kept l h2 h3) : Kept l h1 h3 :=
  fun p m hp x hx1 hx2 => (h' p m hp x hx1 hx2).trans (h p m hp x hx1 hx2)

theorem Kept.mono {l' : List (Nat × Nat)} (hk : Kept l h h') (hl : l' ⊆ l) : Kept l' h h' :=
  fun p m hp => hk p m (hl hp)

variable {L : List Block}

theorem Pool.Holds.setByte (hL : (Pool.mk h l).Holds L) {p n : Nat}
    (hp : (p, n) ∈ l) (h1 : p ≤ x) (h2 : x < p + n) (v : UInt8) : (Pool.mk (h.setByte x v) l).Holds L := by
  obtain ⟨hl, hle⟩ := Pool.holds_iff.1 hL
  obtain ⟨sz, hm, hsz⟩ := hL.room _ hp
  obtain ⟨h16, -, -, hp16⟩ := hL.tiled.owned_size hm
  simp only at hm hsz h16 hp16
  have hstore := hl.store (i := (x - p) / 8) (v := putByte (h.mem (x / 8 * 8)) (x % 8) v.toNat) hm (by omega)
  unfold Pool.step at hstore
  dsimp only at hstore
  rw [show p + 8 * ((x - p) / 8) = x / 8 * 8 by omega] at hstore
  exact Pool.holds_iff.2 ⟨hstore, hle⟩

theorem Pool.Holds.writeBytes {h : Kheap} {l : List (Nat × Nat)} {L : List Block} (hL : (Pool.mk h l).Holds L) {p n a : Nat}
    (hp : (p, n) ∈ l) (h1 : p ≤ a) (f : Nat → UInt8) : ∀ {k : Nat}, a + k ≤ p + n → (Pool.mk (h.writeBytes a f k) l).Holds L
  | 0, _ => hL
  | k + 1, h2 => (Pool.Holds.writeBytes hL hp h1 f (k := k) (by omega)).setByte hp (by omega) (by omega) _

/-- The heap is in order and `l` are the allocations, addresses and sizes. -/
def Owned (h : Kheap) (l : List (Nat × Nat)) : Prop := ∃ L, (Pool.mk h l).Holds L

namespace Owned

variable {h : Kheap} {l : List (Nat × Nat)}

theorem perm {l' : List (Nat × Nat)} (ho : h.Owned l) (hp : l.Perm l') : h.Owned l' := by
  obtain ⟨L, hL⟩ := ho
  exact ⟨L, hL.tiled, ((hp.map _).nodup_iff).1 hL.nodup, fun p => ((hp.map _).mem_iff.symm).trans (hL.ptrs p),
    fun e he => hL.room e (hp.mem_iff.2 he)⟩

theorem nodup (ho : h.Owned l) : (l.map Prod.fst).Nodup := ho.choose_spec.nodup

variable {p n a k : Nat}

section
variable (ho : h.Owned l)
include ho

section

variable (hp : (p, n) ∈ l)
include hp

theorem bounds : heapBase < p ∧ p + n ≤ heapEnd := by
  obtain ⟨L, hL⟩ := ho
  obtain ⟨a, b, hm, h1, -, h2, -⟩ := hL.block hp
  have := placed_bounds hm
  have hfill := hL.tiled.fill
  simp only at h1 h2 this
  unfold heapEnd
  omega

theorem apart {q m : Nat} (hq : (q, m) ∈ l) (hne : p ≠ q) : p + n ≤ q ∨ q + m ≤ p := by
  obtain ⟨L, hL⟩ := ho
  obtain ⟨a, b, hm, h1, -, h2, -⟩ := hL.block hp
  obtain ⟨a', b', hm', h1', -, h2', -⟩ := hL.block hq
  simp only at h1 h2 h1' h2'
  have := placed_disjoint hm hm' (fun hx => hne (by rw [h1, h1', (Prod.mk.inj hx).1]))
  simp only at this
  omega

theorem setByte {x : Nat} (h1 : p ≤ x) (h2 : x < p + n) (v : UInt8) : (h.setByte x v).Owned l :=
  ⟨_, ho.choose_spec.setByte hp h1 h2 v⟩

theorem writeBytes (h1 : p ≤ a) (f : Nat → UInt8) (h2 : a + k ≤ p + n) : (h.writeBytes a f k).Owned l :=
  ⟨_, ho.choose_spec.writeBytes hp h1 f h2⟩

theorem put64 (h1 : p ≤ a) (h2 : a + 8 ≤ p + n) (v : Nat) : (h.put64 a v).Owned l :=
  ho.writeBytes hp h1 _ h2

end

/-- **`kmalloc`** fails or adds an allocation; the bytes of the others are kept. -/
theorem kmalloc (hn : n ≤ 2 ^ 64 - 16) :
    (h.kmalloc n = (h, 0) ∨ ((h.kmalloc n).2 ≠ 0 ∧ (h.kmalloc n).1.Owned (((h.kmalloc n).2, n) :: l))) ∧
    Kept l h (h.kmalloc n).1 := by
  obtain ⟨L, hL⟩ := ho
  refine ⟨?_, fun p m hp x h1 h2 => ?_⟩
  · rcases hL.tiled.kmalloc n with ⟨hfail, -⟩ | ⟨-, -, -, p, -, rfl, hz, -⟩
    · exact .inl hfail
    · obtain ⟨L', hL'⟩ := hL.kmalloc hn
      unfold Pool.step at hL'
      dsimp only at hL'
      rw [if_neg hz] at hL'
      exact .inr ⟨hz, L', hL'⟩
  · obtain ⟨a, b, hm, ha, hb, hle, -⟩ := hL.block hp
    simp only at ha hle
    have hword : ¬ HeapByte L none x := not_heapByte_of_used hm hb nofun (by omega) (by omega)
    have hmem : (h.kmalloc n).1.mem (x / 8 * 8) = h.mem (x / 8 * 8) :=
      (Pool.holds_iff.1 hL).1.step_mem (.kmalloc n) (show n < 2 ^ 64 by omega) (fun hx => hword (hx.word hL.tiled.toRow))
    unfold bytes byte
    rw [hmem]

/-- **`kfree`** of an allocation; the bytes of the others are kept. -/
theorem kfree (hp : (p, n) ∈ l) : (h.kfree p).Owned (l.filter (fun e => e.1 ≠ p)) ∧
    ∀ q m, (q, m) ∈ l → q ≠ p → ∀ x, q ≤ x → x < q + m → (h.kfree p).bytes x = h.bytes x := by
  obtain ⟨L, hL⟩ := ho
  have hpl : p ∈ (Pool.mk h l).live.map Prod.fst := mem_map_of_mem hp
  refine ⟨hL.kfree hpl, fun q m hq hne x h1 h2 => ?_⟩
  obtain ⟨a, b, hm, ha, hb, hle, -⟩ := hL.block hq
  simp only at ha hle
  have hword : ¬ HeapByte L (some p) x :=
    not_heapByte_of_used hm hb (fun hx => hne (by rw [ha, Option.some.inj hx])) (by omega) (by omega)
  have hmem : (h.kfree p).mem (x / 8 * 8) = h.mem (x / 8 * 8) :=
    (Pool.holds_iff.1 hL).1.step_mem (.kfree p) hpl (fun hx => hword (hx.word hL.tiled.toRow))
  unfold bytes byte
  rw [hmem]

end

theorem kfree_head (ho : h.Owned ((p, n) :: l)) : (h.kfree p).Owned l ∧ Kept l h (h.kfree p) := by
  have hnd := ho.nodup
  rw [map_cons, nodup_cons] at hnd
  have hne : ∀ e ∈ l, e.1 ≠ p := fun e he hx => hnd.1 (mem_map.2 ⟨e, he, hx⟩)
  obtain ⟨h1, h2⟩ := ho.kfree mem_cons_self
  rw [filter_cons_of_neg (by simp), filter_eq_self.2 (fun e he => by simpa using hne e he)] at h1
  exact ⟨h1, fun q m hq => h2 q m (mem_cons_of_mem _ hq) (hne _ hq)⟩

end Owned

end Kheap
end Noxis
