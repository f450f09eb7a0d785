import Noxis.Linked
import Noxis.Run
/-!
# Kheap — the kernel heap (`mm/virt/heap.c`)

The heap is a window of memory in which block headers and payloads alternate.  The model keeps the memory itself, one
64-bit word at each address, so that the headers, the poison `kfree` writes and the owners' stores all live in the same
words.  A header is four words: magic, size, next (whose bit 0 says that the block is free) and prev.

`Seg h p a L` says that the memory from `a` on holds the headers of the blocks `L` one after the other, `p` being the block
before.  Each operation is one edit of the list: `kmalloc` marks or splits the first block that fits, `kfree` marks a block
and absorbs its free neighbours.
-/
namespace Noxis

open List Function Prod Nat

/-! ## The code -/

def heapBase : Nat := 0xFFFF800000000000 + 16 * 1024 * 1024
def heapSize : Nat := 32 * 1024 * 1024
def heapEnd : Nat := heapBase + heapSize
def blockMagic : Nat := 0xB10C600DB10C600D
def poison : Nat := 0xDEADC0DEDEADC0DE

def w64 (x : Nat) : Nat := x % 2 ^ 64
def sub64 (x y : Nat) : Nat := w64 (x + (2 ^ 64 - y))

def align16 (n : Nat) : Nat := w64 (n + 15) / 16 * 16

structure Kheap where
  mem : Nat → Nat
  head : Nat

namespace Kheap

def set (h : Kheap) (x v : Nat) : Kheap := { h with mem := update h.mem x v }

def magic (h : Kheap) (b : Nat) : Nat := h.mem b
def size (h : Kheap) (b : Nat) : Nat := h.mem (b + 8)
def next (h : Kheap) (b : Nat) : Nat := h.mem (b + 16)
def prev (h : Kheap) (b : Nat) : Nat := h.mem (b + 24)
def setMagic (h : Kheap) (b v : Nat) : Kheap := h.set b v
def setSize (h : Kheap) (b v : Nat) : Kheap := h.set (b + 8) v
def setNext (h : Kheap) (b v : Nat) : Kheap := h.set (b + 16) v
def setPrev (h : Kheap) (b v : Nat) : Kheap := h.set (b + 24) v

-- bit 0 of `next`: the masks `& ~1` and `| 1`
def blkNext (h : Kheap) (b : Nat) : Nat := h.next b / 2 * 2
def blkIsFree (h : Kheap) (b : Nat) : Bool := h.next b % 2 == 1
def blkSetFree (h : Kheap) (b : Nat) : Kheap := h.setNext b (h.next b / 2 * 2 + 1)
def blkSetUsed (h : Kheap) (b : Nat) : Kheap := h.setNext b (h.next b / 2 * 2)

/-- `heap_init` on a memory that holds anything. -/
def heapInit (mem : Nat → Nat) : Kheap :=
  let h : Kheap := ⟨mem, heapBase⟩
  let h := h.setMagic h.head blockMagic
  let h := h.setSize h.head (heapSize - 32)
  let h := h.setNext h.head 0
  let h := h.setPrev h.head 0
  h.blkSetFree h.head

def ptr (p : Nat) : Option Nat := if p = 0 then none else some p

def fits (h : Kheap) (want b : Nat) : Bool := h.blkIsFree b && decide (want ≤ h.size b)

/-- `if (b) b->prev = p;` -/
def relinkPrev (h : Kheap) (b p : Nat) : Kheap := if b = 0 then h else h.setPrev b p

def split (h : Kheap) (b want : Nat) : Kheap :=
  let nb := w64 (b + 32 + want)
  let h := h.setMagic nb blockMagic
  let h := h.setSize nb (sub64 (sub64 (h.size b) want) 32)
  let bOldNext := h.blkNext b
  let h := h.setNext nb bOldNext
  let h := h.setPrev nb b
  let h := h.blkSetFree nb
  let h := h.relinkPrev bOldNext nb
  let h := h.setNext b nb
  h.setSize b want

/-- The loop is over a list of at most `heapSize / 32` headers. -/
def find (h : Kheap) (want : Nat) : Option (Option Nat) :=
  Linked.scan (fun b => ptr (h.blkNext b)) (h.fits want) (heapSize / 32) (ptr h.head)

def kmalloc (h : Kheap) (want : Nat) : Kheap × Nat :=
  if want = 0 then (h, 0) else
  let want := align16 want
  match h.find want with
  | some (some b) =>
    let h := if w64 (want + 32 + 16) ≤ h.size b then h.split b want else h
    (h.blkSetUsed b, w64 (b + 32))
  | _ => (h, 0)

/-- `for (i = 0; i < n; i++) q[i] = POISON;` -/
def poisonFrom (h : Kheap) (q : Nat) : Nat → Kheap
  | 0 => h
  | n + 1 => (h.poisonFrom q n).set (q + 8 * n) poison

def absorb (h : Kheap) (b bn : Nat) : Kheap :=
  let h := h.setSize b (w64 (h.size b + (32 + h.size bn)))
  let h := h.setNext b (h.blkNext bn + 1)
  h.relinkPrev (h.blkNext bn) b

def kfree (h : Kheap) (p : Nat) : Kheap :=
  if p = 0 then h else
  let b := sub64 p 32
  if h.magic b ≠ blockMagic then h else
  let h := h.blkSetFree b
  let h := h.poisonFrom p (h.size b / 8)
  let bn := h.blkNext b
  let h := if bn ≠ 0 && h.blkIsFree bn then h.absorb b bn else h
  if h.prev b ≠ 0 && h.blkIsFree (h.prev b) then h.absorb (h.prev b) b else h

end Kheap

/-! ## Blocks in a row -/

namespace Kheap

structure Block where
  size : Nat
  free : Bool
  deriving DecidableEq, Repr

def total : List Block → Nat
  | [] => 0
  | b :: L => 32 + b.size + total L

def placed : Nat → List Block → List (Nat × Block)
  | _, [] => []
  | a, b :: L => (a, b) :: placed (a + 32 + b.size) L

/-- The header that precedes what follows the blocks `L` from `a` on, `p` when there is none. -/
def lastOf : Nat → Nat → List Block → Nat
  | p, _, [] => p
  | _, a, b :: L => lastOf a (a + 32 + b.size) L

/-- The pointer to a header at `x`: `NULL` at the end of the window. -/
def link (x : Nat) : Nat := if x = heapEnd then 0 else x

structure HeaderAt (h : Kheap) (p a : Nat) (b : Block) : Prop where
  magic : h.mem a = blockMagic
  size : h.mem (a + 8) = b.size
  next : h.mem (a + 16) = link (a + 32 + b.size) + b.free.toNat
  prev : h.mem (a + 24) = p

/-- The memory from `a` on holds the blocks `L`, the first one's predecessor being `p`. -/
def Seg (h : Kheap) : Nat → Nat → List Block → Prop
  | _, _, [] => True
  | p, a, b :: L => HeaderAt h p a b ∧ Seg h a (a + 32 + b.size) L

variable {h h' : Kheap} {p a : Nat} {b : Block} {L L1 L2 : List Block}

@[simp] theorem total_append : ∀ (L1 L2 : List Block), total (L1 ++ L2) = total L1 + total L2
  | [], _ => (zero_add _).symm
  | b :: L1, L2 => by
    rw [cons_append, total, total, total_append L1 L2]
    omega

theorem total_mod : ∀ {L : List Block}, (∀ b ∈ L, b.size % 16 = 0) → total L % 16 = 0
  | [], _ => rfl
  | b :: L, hL => by
    have h1 := hL b mem_cons_self
    have h2 := total_mod (fun c hc => hL c (mem_cons_of_mem _ hc))
    rw [total]
    omega

theorem length_le_total : ∀ (L : List Block), 32 * L.length ≤ total L
  | [] => le_refl _
  | b :: L => by
    have := length_le_total L
    rw [total, length_cons]
    omega

theorem placed_append : ∀ (a : Nat) (L1 L2 : List Block), placed a (L1 ++ L2) = placed a L1 ++ placed (a + total L1) L2
  | _, [], _ => rfl
  | a, b :: L1, L2 => by
    rw [cons_append, placed, placed, placed_append (a + 32 + b.size) L1 L2, total, cons_append]
    congr 3
    omega

theorem placed_length : ∀ (a : Nat) (L : List Block), (placed a L).length = L.length
  | _, [] => rfl
  | a, b :: L => congrArg (· + 1) (placed_length (a + 32 + b.size) L)

theorem placed_bounds : ∀ {a : Nat} {L : List Block} {x : Nat × Block}, x ∈ placed a L →
    a ≤ x.1 ∧ x.1 + 32 + x.2.size ≤ a + total L
  | a, b :: L, x, hx => by
    rw [total]
    rcases mem_cons.1 hx with rfl | hx
    · simp only
      omega
    · have := placed_bounds hx
      omega

theorem placed_sorted : ∀ (a : Nat) (L : List Block), (placed a L).Pairwise (fun x y => x.1 + 32 + x.2.size ≤ y.1)
  | _, [] => List.Pairwise.nil
  | _, _ :: L => List.Pairwise.cons (fun _ hy => (placed_bounds hy).1) (placed_sorted _ L)

theorem placed_disjoint : ∀ {a : Nat} {L : List Block} {x y : Nat × Block}, x ∈ placed a L → y ∈ placed a L → x ≠ y →
    x.1 + 32 + x.2.size ≤ y.1 ∨ y.1 + 32 + y.2.size ≤ x.1
  | a, b :: L, x, y, hx, hy, hne => by
    rcases mem_cons.1 hx with rfl | hx <;> rcases mem_cons.1 hy with rfl | hy
    · exact absurd rfl hne
    · exact .inl (placed_bounds hy).1
    · exact .inr (placed_bounds hx).1
    · exact placed_disjoint hx hy hne

theorem exists_append_of_mem_placed : ∀ {a : Nat} {L : List Block} {x : Nat × Block}, x ∈ placed a L →
    ∃ L1 L2, L = L1 ++ x.2 :: L2 ∧ x.1 = a + total L1
  | a, b :: L, x, hx => by
    rcases mem_cons.1 hx with rfl | hx
    · exact ⟨[], L, rfl, rfl⟩
    · obtain ⟨L1, L2, h1, h2⟩ := exists_append_of_mem_placed hx
      refine ⟨b :: L1, L2, by rw [h1]; rfl, ?_⟩
      rw [h2, total]
      omega

theorem lastOf_append : ∀ (p a : Nat) (L1 L2 : List Block), lastOf p a (L1 ++ L2) = lastOf (lastOf p a L1) (a + total L1) L2
  | _, _, [], _ => rfl
  | p, a, b :: L1, L2 => by
    rw [cons_append, lastOf, lastOf, lastOf_append, total]
    congr 1
    omega

theorem seg_append : ∀ {p a : Nat} {L1 L2 : List Block},
    Seg h p a (L1 ++ L2) ↔ Seg h p a L1 ∧ Seg h (lastOf p a L1) (a + total L1) L2
  | p, a, [], L2 => by simp [Seg, lastOf, total]
  | p, a, b :: L1, L2 => by
    rw [cons_append, Seg, Seg, lastOf, seg_append, total, and_assoc]
    have he : a + 32 + b.size + total L1 = a + (32 + b.size + total L1) := by omega
    rw [he]

theorem HeaderAt.frame (hh : HeaderAt h p a b) (hm : ∀ x, a ≤ x → x < a + 32 → h'.mem x = h.mem x) : HeaderAt h' p a b where
  magic := by rw [hm a (by omega) (by omega)]; exact hh.magic
  size := by rw [hm (a + 8) (by omega) (by omega)]; exact hh.size
  next := by rw [hm (a + 16) (by omega) (by omega)]; exact hh.next
  prev := by rw [hm (a + 24) (by omega) (by omega)]; exact hh.prev

theorem Seg.frame : ∀ {p a : Nat} {L : List Block}, Seg h p a L →
    (∀ x, a ≤ x → x < a + total L → h'.mem x = h.mem x) → Seg h' p a L
  | _, _, [], _, _ => trivial
  | p, a, b :: L, ⟨h1, h2⟩, hm => by
    rw [total] at hm
    exact ⟨h1.frame (fun x hx hx' => hm x hx (by omega)), h2.frame (fun x hx hx' => hm x (by omega) (by omega))⟩

theorem HeaderAt.isFree (hh : HeaderAt h p a b) (ha : a % 16 = 0) (hb : b.size % 16 = 0) : h.blkIsFree a = b.free := by
  have hl : link (a + 32 + b.size) % 2 = 0 := by unfold link; split <;> omega
  unfold blkIsFree Kheap.next
  rw [hh.next, add_mod, hl]
  cases b.free <;> rfl

theorem HeaderAt.blkNext (hh : HeaderAt h p a b) (ha : a % 16 = 0) (hb : b.size % 16 = 0) :
    h.blkNext a = link (a + 32 + b.size) := by
  have hl : link (a + 32 + b.size) % 2 = 0 := by unfold link; split <;> omega
  have hf : b.free.toNat ≤ 1 := by cases b.free <;> decide
  unfold Kheap.blkNext Kheap.next
  rw [hh.next]
  omega

/-! ## What the window looks like -/

def Apart (L : List Block) : Prop := L.IsChain (fun b c => ¬ (b.free = true ∧ c.free = true))

/-- The headers from `g_head` on are those of the blocks `L`, which fill the window. -/
structure Row (h : Kheap) (L : List Block) : Prop where
  head : h.head = heapBase
  seg : Seg h 0 heapBase L
  fill : total L = heapSize
  aligned : ∀ b ∈ L, b.size % 16 = 0

structure Tiled (h : Kheap) (L : List Block) : Prop extends Row h L where
  apart : Apart L

end Kheap

/-! ## Editing the row -/

namespace Kheap

variable {h h' : Kheap} {p a : Nat} {b : Block} {L L1 L2 : List Block}

structure ToEnd (a : Nat) (L : List Block) : Prop where
  pos : 0 < a
  start : a % 16 = 0
  aligned : ∀ b ∈ L, b.size % 16 = 0
  reach : a + total L = heapEnd

theorem heapEnd_lt : heapEnd < 2 ^ 64 := by decide

theorem ToEnd.tail (hl : ToEnd a (b :: L)) : ToEnd (a + 32 + b.size) L where
  pos := by omega
  start := by
    have h1 := hl.start
    have h2 := hl.aligned b mem_cons_self
    omega
  aligned := fun c hc => hl.aligned c (mem_cons_of_mem _ hc)
  reach := by
    have h1 := hl.reach
    rw [total] at h1
    omega

variable {f : Bool}

theorem ToEnd.flag (hl : ToEnd a (b :: L)) : ToEnd a (⟨b.size, f⟩ :: L) where
  pos := hl.pos
  start := hl.start
  aligned := fun c hc => by
    rcases mem_cons.1 hc with rfl | hc
    · exact hl.aligned b mem_cons_self
    · exact hl.aligned c (mem_cons_of_mem _ hc)
  reach := hl.reach

theorem ToEnd.link_nil (hl : ToEnd a []) : link a = 0 := by
  have h1 : a + 0 = heapEnd := hl.reach
  rw [link, if_pos (by omega)]

theorem ToEnd.link_cons (hl : ToEnd a (b :: L)) : link a = a := by
  have h1 := hl.reach
  rw [total] at h1
  rw [link, if_neg (by omega)]

theorem Row.split (ht : Row h (L1 ++ L2)) : Seg h 0 heapBase L1 ∧
    Seg h (lastOf 0 heapBase L1) (heapBase + total L1) L2 ∧ ToEnd (heapBase + total L1) L2 := by
  obtain ⟨h1, h2⟩ := seg_append.1 ht.seg
  have h3 := total_mod (fun b hb => ht.aligned b (mem_append_left L2 hb))
  have h4 := ht.fill
  have h5 : heapBase % 16 = 0 ∧ 0 < heapBase := by decide
  rw [total_append] at h4
  refine ⟨h1, h2, by omega, by omega, fun b hb => ht.aligned b (mem_append_right L1 hb), ?_⟩
  unfold heapEnd
  omega

theorem Row.edit {M M' : List Block} (ht : Row h (L1 ++ M)) (hhead : h'.head = h.head)
    (hlow : ∀ x, x < heapBase + total L1 → h'.mem x = h.mem x)
    (hseg : Seg h' (lastOf 0 heapBase L1) (heapBase + total L1) M') (hto : ToEnd (heapBase + total L1) M') :
    Row h' (L1 ++ M') where
  head := hhead.trans ht.head
  seg := seg_append.2 ⟨ht.split.1.frame (fun x _ hx => hlow x hx), hseg⟩
  fill := by
    have h1 := hto.reach
    rw [total_append]
    unfold heapEnd at h1
    omega
  aligned := fun c hc => (mem_append.1 hc).elim (fun hc => ht.aligned c (mem_append_left _ hc)) (hto.aligned c)

theorem Seg.relink {p' : Nat} (hs : Seg h p a L) (hl : ToEnd a L)
    (hm : ∀ x, a ≤ x → x < heapEnd → h'.mem x = (h.relinkPrev (link a) p').mem x) : Seg h' p' a L := by
  cases L with
  | nil => trivial
  | cons b L =>
    have hto := hl.tail.reach
    have hup : ∀ x, a ≤ x → x < heapEnd → h'.mem x = update h.mem (a + 24) p' x := fun x hx hx' => by
      rw [hm x hx hx', hl.link_cons, relinkPrev, if_neg (by have := hl.pos; omega)]
      rfl
    have hne : ∀ x, a ≤ x → x < heapEnd → x ≠ a + 24 → h'.mem x = h.mem x := fun x hx hx' hxe => by
      rw [hup x hx hx', update_of_ne hxe]
    refine ⟨⟨?_, ?_, ?_, ?_⟩, hs.2.frame (fun x hx hx' => hne x (by omega) (by omega) (by omega))⟩
    · rw [hne a (by omega) (by omega) (by omega)]
      exact hs.1.magic
    · rw [hne (a + 8) (by omega) (by omega) (by omega)]
      exact hs.1.size
    · rw [hne (a + 16) (by omega) (by omega) (by omega)]
      exact hs.1.next
    · rw [hup (a + 24) (by omega) (by omega), update_self]

theorem Row.toEnd (ht : Row h L) : ToEnd heapBase L :=
  have ht' : Row h ([] ++ L) := ht
  ht'.split.2.2

theorem Row.header (ht : Row h (L1 ++ b :: L2)) : HeaderAt h (lastOf 0 heapBase L1) (heapBase + total L1) b := ht.split.2.1.1

theorem Row.isFree (ht : Row h (L1 ++ b :: L2)) : h.blkIsFree (heapBase + total L1) = b.free :=
  ht.header.isFree ht.split.2.2.start (ht.aligned b (by simp))

theorem Row.blkNext (ht : Row h (L1 ++ b :: L2)) : h.blkNext (heapBase + total L1) = link (heapBase + total L1 + 32 + b.size) :=
  ht.header.blkNext ht.split.2.2.start (ht.aligned b (by simp))

variable {q x y s n want : Nat}

theorem relinkPrev_low (hx : x < a) : (h.relinkPrev (link a) q).mem x = h.mem x := by
  unfold relinkPrev
  split
  · rfl
  · rename_i hne
    have hl : link a = a := by unfold link at hne ⊢; split <;> simp_all
    rw [hl]
    exact update_of_ne (by omega) _ _

theorem relinkPrev_congr (hx : h'.mem x = h.mem x) : (h'.relinkPrev y q).mem x = (h.relinkPrev y q).mem x := by
  unfold relinkPrev
  split
  · exact hx
  · simp only [setPrev, set, Function.update_apply, hx]

theorem relinkPrev_head : (h.relinkPrev y q).head = h.head := by
  unfold relinkPrev
  split <;> rfl

def Clear (a : Nat) (L : List Block) (x : Nat) : Prop := ∀ y ∈ placed a L, x < y.1 ∨ y.1 + 32 ≤ x

theorem clear_cons : Clear a (b :: L) x ↔ (x < a ∨ a + 32 ≤ x) ∧ Clear (a + 32 + b.size) L x :=
  forall_mem_cons

theorem clear_append : Clear a (L1 ++ L2) x ↔ Clear a L1 x ∧ Clear (a + total L1) L2 x := by
  unfold Clear
  rw [placed_append, forall_mem_append]

variable {c : Block}

theorem Clear.join (hx : Clear a (L1 ++ b :: c :: L2) x) : Clear a (L1 ++ ⟨b.size + 32 + c.size, f⟩ :: L2) x := by
  rw [clear_append, clear_cons, clear_cons] at hx
  obtain ⟨h1, h2, -, h4⟩ := hx
  rw [clear_append, clear_cons]
  refine ⟨h1, h2, ?_⟩
  have he : a + total L1 + 32 + (b.size + 32 + c.size) = a + total L1 + 32 + b.size + 32 + c.size := by omega
  rw [he]
  exact h4

theorem relinkPrev_mem (hl : ToEnd a L) (hx : Clear a L x) : (h.relinkPrev (link a) q).mem x = h.mem x := by
  cases L with
  | nil =>
    rw [hl.link_nil]
    rfl
  | cons b L =>
    rw [hl.link_cons, relinkPrev, if_neg (ne_of_gt hl.pos)]
    exact update_of_ne (by have := (clear_cons.1 hx).1; omega) _ _

theorem Seg.mark (hs : Seg h p a (b :: L)) (hl : ToEnd a (b :: L)) :
    Seg (h.setNext a (h.next a / 2 * 2 + f.toNat)) p a (⟨b.size, f⟩ :: L) := by
  obtain ⟨h1, h2⟩ := hs
  have hn := h1.blkNext hl.start (hl.aligned b mem_cons_self)
  refine ⟨⟨?_, ?_, ?_, ?_⟩, h2.frame (fun x hx _ => update_of_ne (by omega) _ _)⟩
  · exact (update_of_ne (by omega) _ _).trans h1.magic
  · exact (update_of_ne (by omega) _ _).trans h1.size
  · refine (update_self _ _ _).trans ?_
    rw [← hn]
    rfl
  · exact (update_of_ne (by omega) _ _).trans h1.prev

def putHeader (h : Kheap) (a s n p : Nat) : Kheap :=
  ((((h.setMagic a blockMagic).setSize a s).setNext a n).setPrev a p).blkSetFree a

theorem putHeader_frame (hx : x < a ∨ a + 32 ≤ x) : (h.putHeader a s n q).mem x = h.mem x := by
  simp (disch := omega) only [putHeader, blkSetFree, setMagic, setSize, setNext, setPrev, set, update_of_ne]

theorem putHeader_headerAt (hn : n / 2 * 2 = link (a + 32 + s)) : HeaderAt (h.putHeader a s n q) q a ⟨s, true⟩ := by
  constructor <;> simp (disch := omega) only [putHeader, blkSetFree, setMagic, setSize, setNext, setPrev, set, next, update_of_ne,
    update_self, hn, Bool.toNat_true]

theorem split_eq (hnb : w64 (a + 32 + want) = a + 32 + want)
    (hs : sub64 (sub64 (h.size a) want) 32 = s) (hn : h.blkNext a = n) :
    h.split a want = (((h.putHeader (a + 32 + want) s n a).relinkPrev n (a + 32 + want)).setNext a (a + 32 + want)).setSize a want := by
  have h1 : (h.setMagic (a + 32 + want) blockMagic).size a = h.size a := update_of_ne (by omega) _ _
  have h2 : ((h.setMagic (a + 32 + want) blockMagic).setSize (a + 32 + want) s).blkNext a = n := by
    rw [← hn]
    simp (disch := omega) only [Kheap.blkNext, next, setSize, setMagic, set, update_of_ne]
  simp only [Kheap.split, hnb, h1, hs, h2]
  rfl

/-- **Splitting** a block that is larger than `want` by a header and sixteen bytes. -/
theorem Seg.split (hs : Seg h p a (b :: L)) (hl : ToEnd a (b :: L)) (hw : want % 16 = 0)
    (hb : want + 48 ≤ b.size) : Seg (h.split a want) p a (⟨want, false⟩ :: ⟨b.size - want - 32, true⟩ :: L) ∧
      (∀ x, x < a → (h.split a want).mem x = h.mem x) ∧ (h.split a want).head = h.head := by
  obtain ⟨h1, h2⟩ := hs
  have hto := hl.tail
  have hr := hto.reach
  have hb16 := hl.aligned b mem_cons_self
  have ha := hl.start
  have hend := heapEnd_lt
  have hnb : w64 (a + 32 + want) = a + 32 + want := mod_eq_of_lt (by omega)
  have hsz : sub64 (sub64 (h.size a) want) 32 = b.size - want - 32 := by
    rw [show h.size a = b.size from h1.size]
    unfold sub64 w64
    omega
  have hlk : link (a + 32 + b.size) / 2 * 2 = link (a + 32 + b.size) := by unfold link; split <;> omega
  rw [split_eq hnb hsz (h1.blkNext ha hb16)]
  generalize hg : h.putHeader (a + 32 + want) (b.size - want - 32) (link (a + 32 + b.size)) a = g
  have hgf : ∀ x, x < a + 32 + want ∨ a + 32 + want + 32 ≤ x → g.mem x = h.mem x := fun x hx => by
    rw [← hg]
    exact putHeader_frame hx
  have hgh : HeaderAt g a (a + 32 + want) ⟨b.size - want - 32, true⟩ := by
    rw [← hg]
    refine putHeader_headerAt (hlk.trans (congrArg link ?_))
    omega
  set r := g.relinkPrev (link (a + 32 + b.size)) (a + 32 + want)
  have hlow : ∀ x, x ≠ a + 8 → x ≠ a + 16 → ((r.setNext a
      (a + 32 + want)).setSize a want).mem x = r.mem x :=
    fun x hx hx' => (update_of_ne hx _ _).trans (update_of_ne hx' _ _)
  refine ⟨⟨⟨?_, ?_, ?_, ?_⟩, hgh.frame fun x hx hx' => ?_, ?_⟩, fun x hx => ?_, ?_⟩
  · rw [hlow a (by omega) (by omega), relinkPrev_low (by omega), hgf a (by omega)]
    exact h1.magic
  · exact update_self _ _ _
  · refine (update_of_ne (by omega) _ _).trans ((update_self _ _ _).trans ?_)
    rw [link, if_neg (by simp only; omega)]
    rfl
  · rw [hlow (a + 24) (by omega) (by omega), relinkPrev_low (by omega), hgf (a + 24) (by omega)]
    exact h1.prev
  · rw [hlow x (by omega) (by omega), relinkPrev_low (by omega)]
  · have he : a + 32 + want + 32 + (b.size - want - 32) = a + 32 + b.size := by omega
    simp only [he]
    exact h2.relink hto (fun x hx _ => (hlow x (by omega) (by omega)).trans (relinkPrev_congr (hgf x (by omega))))
  · rw [hlow x (by omega) (by omega), relinkPrev_low (by omega), hgf x (by omega)]
  · refine relinkPrev_head.trans ?_
    rw [← hg]
    rfl

theorem Seg.split_mem (hs : Seg h p a (b :: L)) (hl : ToEnd a (b :: L)) (hb : want + 48 ≤ b.size)
    (hx : Clear a (b :: L) x) (hout : x < a + 32 ∨ a + 32 + b.size ≤ x) : (h.split a want).mem x = h.mem x := by
  obtain ⟨hxa, hxL⟩ := clear_cons.1 hx
  have hr := hl.tail.reach
  have hend := heapEnd_lt
  have hnb : w64 (a + 32 + want) = a + 32 + want := mod_eq_of_lt (by omega)
  rw [split_eq hnb rfl (hs.1.blkNext hl.start (hl.aligned b mem_cons_self))]
  refine (update_of_ne (by omega) _ _).trans ((update_of_ne (by omega) _ _).trans ?_)
  rw [relinkPrev_mem hl.tail hxL, putHeader_frame (by omega)]

theorem absorb_eq {bn : Nat} (hbn : a + 32 ≤ bn) (hs : w64 (h.size a + (32 + h.size bn)) = s) (hn : h.blkNext bn = n) :
    h.absorb a bn = ((h.setSize a s).setNext a (n + 1)).relinkPrev n a := by
  have h1 : (h.setSize a s).blkNext bn = n := by
    rw [← hn]
    simp (disch := omega) only [Kheap.blkNext, next, setSize, set, update_of_ne]
  have h2 : ((h.setSize a s).setNext a (n + 1)).blkNext bn = n := by
    rw [← h1]
    simp (disch := omega) only [Kheap.blkNext, next, setNext, set, update_of_ne]
  simp only [Kheap.absorb, hs, h1, h2]

theorem Seg.absorb (hs : Seg h p a (b :: c :: L)) (hl : ToEnd a (b :: c :: L)) :
    let r := h.absorb a (a + 32 + b.size)
    Seg r p a (⟨b.size + 32 + c.size, true⟩ :: L) ∧ (∀ x, x < a → r.mem x = h.mem x) ∧ r.head = h.head := by
  obtain ⟨h1, h2, h3⟩ := hs
  have hto := hl.tail.tail
  have hr := hto.reach
  have hend := heapEnd_lt
  have hsz : w64 (h.size a + (32 + h.size (a + 32 + b.size))) = b.size + 32 + c.size := by
    rw [show h.size a = b.size from h1.size, show h.size (a + 32 + b.size) = c.size from h2.size]
    unfold w64
    omega
  have hn := h2.blkNext hl.tail.start (hl.aligned c (by simp))
  have he : a + 32 + (b.size + 32 + c.size) = a + 32 + b.size + 32 + c.size := by omega
  rw [absorb_eq (by omega) hsz hn]
  have hg : ∀ x, x ≠ a + 8 → x ≠ a + 16 → ((h.setSize a (b.size + 32 + c.size)).setNext a
      (link (a + 32 + b.size + 32 + c.size) + 1)).mem x = h.mem x :=
    fun x hx hx' => (update_of_ne hx' _ _).trans (update_of_ne hx _ _)
  refine ⟨⟨⟨?_, ?_, ?_, ?_⟩, ?_⟩, fun x hx => ?_, relinkPrev_head⟩
  · rw [relinkPrev_low (by omega), hg a (by omega) (by omega)]
    exact h1.magic
  · rw [relinkPrev_low (by omega)]
    exact (update_of_ne (by omega) _ _).trans (update_self _ _ _)
  · rw [relinkPrev_low (by omega)]
    refine (update_self _ _ _).trans ?_
    simp only [he, Bool.toNat_true]
  · rw [relinkPrev_low (by omega), hg (a + 24) (by omega) (by omega)]
    exact h1.prev
  · simp only [he]
    exact h3.relink hto (fun x hx _ => relinkPrev_congr (hg x (by omega) (by omega)))
  · rw [relinkPrev_low (by omega), hg x (by omega) (by omega)]

theorem Seg.absorb_mem (hs : Seg h p a (b :: c :: L)) (hl : ToEnd a (b :: c :: L))
    (hx : Clear a (b :: c :: L) x) : (h.absorb a (a + 32 + b.size)).mem x = h.mem x := by
  obtain ⟨hxa, hxc⟩ := clear_cons.1 hx
  rw [absorb_eq (by omega) rfl (hs.2.1.blkNext hl.tail.start (hl.aligned c (by simp))),
    relinkPrev_mem hl.tail.tail (clear_cons.1 hxc).2]
  exact (update_of_ne (by omega) _ _).trans (update_of_ne (by omega) _ _)

theorem Seg.payload (hs : Seg h p a (b :: L)) (hm : ∀ x, x < a + 32 ∨ a + 32 + b.size ≤ x → h'.mem x = h.mem x) :
    Seg h' p a (b :: L) :=
  ⟨hs.1.frame (fun x _ hx => hm x (.inl hx)), hs.2.frame (fun x hx _ => hm x (.inr hx))⟩

theorem poisonFrom_frame {q x : Nat} : ∀ {n : Nat}, x < q ∨ q + 8 * n ≤ x → (h.poisonFrom q n).mem x = h.mem x
  | 0, _ => rfl
  | n + 1, hx => (update_of_ne (by omega) _ _).trans (poisonFrom_frame (n := n) (by omega))

theorem poisonFrom_head {q : Nat} : ∀ (n : Nat), (h.poisonFrom q n).head = h.head
  | 0 => rfl
  | n + 1 => poisonFrom_head n

/-! ## `kmalloc` -/

theorem Seg.chain : ∀ {p a : Nat} {L : List Block}, Seg h p a L → ToEnd a L →
    Linked.Chain (fun b => ptr (h.blkNext b)) (ptr (link a)) ((placed a L).map fst)
  | _, a, [], _, hl => by
    rw [hl.link_nil]
    rfl
  | p, a, b :: L, ⟨h1, h2⟩, hl => by
    refine ⟨?_, ?_⟩
    · rw [hl.link_cons, ptr, if_neg (by have := hl.pos; omega)]
    · simp only [h1.blkNext hl.start (hl.aligned b mem_cons_self)]
      exact h2.chain hl.tail

theorem Row.fits {x : Nat × Block} (ht : Row h L) (hx : x ∈ placed heapBase L) (want : Nat) :
    h.fits want x.1 = (x.2.free && decide (want ≤ x.2.size)) := by
  obtain ⟨L1, L2, rfl, hx1⟩ := exists_append_of_mem_placed hx
  obtain ⟨-, hs, hl⟩ := ht.split
  have hb := hl.aligned x.2 mem_cons_self
  rw [← hx1] at hs hl
  rw [Kheap.fits, hs.1.isFree hl.start hb, show h.size x.1 = x.2.size from hs.1.size]

theorem Row.find (ht : Row h L) (want : Nat) :
    h.find want = some (((placed heapBase L).find? (fun x => x.2.free && decide (want ≤ x.2.size))).map fst) := by
  have hhead : ptr h.head = ptr (link heapBase) := by
    rw [ht.head]
    rfl
  have hlen : ((placed heapBase L).map fst).length ≤ heapSize / 32 := by
    have h1 := length_le_total L
    rw [length_map, placed_length]
    rw [ht.fill] at h1
    omega
  rw [Kheap.find, hhead, Linked.scan_eq _ (ht.seg.chain ht.toEnd) hlen, find?_map]
  congr 2
  exact find?_congr fun x hx => ht.fits hx want

def owned (a : Nat) (L : List Block) : List (Nat × Nat) :=
  ((placed a L).filter (fun x => !x.2.free)).map (fun x => (x.1 + 32, x.2.size))

theorem owned_append (a : Nat) (L1 L2 : List Block) : owned a (L1 ++ L2) = owned a L1 ++ owned (a + total L1) L2 := by
  rw [owned, placed_append, filter_append, map_append]
  rfl

@[simp] theorem owned_free (a s : Nat) (L : List Block) : owned a (⟨s, true⟩ :: L) = owned (a + 32 + s) L := rfl

@[simp] theorem owned_used (a s : Nat) (L : List Block) :
    owned a (⟨s, false⟩ :: L) = (a + 32, s) :: owned (a + 32 + s) L := rfl

theorem apart_used : Apart (L1 ++ ⟨s, false⟩ :: L2) ↔ Apart L1 ∧ Apart L2 := by
  unfold Apart
  rw [isChain_append, isChain_cons]
  simp

theorem apart_free : Apart (L1 ++ ⟨s, true⟩ :: L2) ↔ Apart L1 ∧ Apart L2 ∧
    (∀ x ∈ L1.getLast?, x.free = false) ∧ ∀ y ∈ L2.head?, y.free = false := by
  unfold Apart
  rw [isChain_append, isChain_cons]
  simp only [head?_cons, Option.mem_some_iff, forall_eq', and_true, true_and, Bool.not_eq_true]
  tauto

theorem align16_eq (hw : want ≤ 2 ^ 64 - 16) : align16 want = (want + 15) / 16 * 16 := by
  unfold align16 w64
  rw [mod_eq_of_lt (by omega)]

theorem Tiled.take (ht : Tiled h (L1 ++ ⟨s, true⟩ :: L2)) (hw : want % 16 = 0) (hs : want ≤ s) :
    ∃ M s', want ≤ s' ∧ Tiled ((if w64 (want + 32 + 16) ≤ h.size (heapBase + total L1) then h.split (heapBase + total L1) want
        else h).blkSetUsed (heapBase + total L1)) (L1 ++ ⟨s', false⟩ :: M) ∧
      owned (heapBase + total L1 + 32 + s') M = owned (heapBase + total L1 + 32 + s) L2 := by
  obtain ⟨-, hseg, hto⟩ := ht.split
  obtain ⟨ha1, ha2, ha3, ha4⟩ := apart_free.1 ht.apart
  have hr := hto.tail.reach
  have hend := heapEnd_lt
  have hs16 := hto.aligned ⟨s, true⟩ mem_cons_self
  have hsize : h.size (heapBase + total L1) = s := hseg.1.size
  have hwrap : w64 (want + 32 + 16) = want + 48 := by
    have hb : 48 ≤ heapBase := by decide
    unfold w64
    simp only at hr
    omega
  rw [hsize, hwrap]
  generalize haa : heapBase + total L1 = a at *
  simp only at hr hs16
  split
  · rename_i hbig
    obtain ⟨h1, h2, h3⟩ := hseg.split hto hw hbig
    have hto' : ToEnd a (⟨want, false⟩ :: ⟨s - want - 32, true⟩ :: L2) := by
      refine ⟨hto.pos, hto.start, ?_, ?_⟩
      · intro c hc
        simp only [mem_cons] at hc
        rcases hc with rfl | rfl | hc
        · exact hw
        · simp only
          omega
        · exact hto.aligned c (mem_cons_of_mem _ hc)
      · simp only [total]
        omega
    refine ⟨⟨s - want - 32, true⟩ :: L2, want, le_refl _, ?_, ?_⟩
    · subst haa
      refine ⟨ht.edit h3 (fun x hx => ?_) ?_ hto', ?_⟩
      · rw [← h2 x hx]
        exact update_of_ne (by omega) _ _
      · exact h1.mark (f := false) hto'
      · exact apart_used.2 ⟨ha1, apart_free.2 ⟨isChain_nil, ha2, by simp, ha4⟩⟩
    · rw [owned_free]
      congr 1
      omega
  · subst haa
    exact ⟨L2, s, hs, ⟨ht.edit rfl (fun x hx => update_of_ne (by omega) _ _) (hseg.mark (f := false) hto) hto.flag,
      apart_used.2 ⟨ha1, ha2⟩⟩, rfl⟩

/-- **`kmalloc` fails only when nothing fits**, and otherwise takes the first free block that does. -/
theorem Row.kmalloc_cases (ht : Row h L) (want : Nat) :
    (h.kmalloc want = (h, 0) ∧ (want = 0 ∨ ∀ b ∈ L, b.free = true → b.size < align16 want)) ∨
    ∃ L1 s L2, L = L1 ++ ⟨s, true⟩ :: L2 ∧ align16 want ≤ s ∧ h.kmalloc want =
      ((if w64 (align16 want + 32 + 16) ≤ h.size (heapBase + total L1) then h.split (heapBase + total L1) (align16 want)
        else h).blkSetUsed (heapBase + total L1), heapBase + total L1 + 32) := by
  by_cases h0 : want = 0
  · exact .inl ⟨by rw [Kheap.kmalloc, if_pos h0], .inl h0⟩
  rw [Kheap.kmalloc, if_neg h0]
  simp only [ht.find]
  cases hf : (placed heapBase L).find? (fun x => x.2.free && decide (align16 want ≤ x.2.size)) with
  | none =>
    refine .inl ⟨rfl, .inr fun b hb hfree => ?_⟩
    obtain ⟨L1, L2, rfl⟩ := append_of_mem hb
    have hmem : (heapBase + total L1, b) ∈ placed heapBase (L1 ++ b :: L2) := by
      rw [placed_append]
      exact mem_append_right _ mem_cons_self
    have := find?_eq_none.1 hf _ hmem
    simpa [hfree] using this
  | some x =>
    obtain ⟨L1, L2, rfl, hx⟩ := exists_append_of_mem_placed (mem_of_find?_eq_some hf)
    obtain ⟨x1, s, f⟩ := x
    have hp := find?_some hf
    simp only [Bool.and_eq_true, decide_eq_true_eq] at hp hx
    obtain ⟨rfl, hfit⟩ := hp
    subst hx
    have hr := ht.split.2.2.tail.reach
    have hend := heapEnd_lt
    simp only at hr
    have hptr : w64 (heapBase + total L1 + 32) = heapBase + total L1 + 32 := mod_eq_of_lt (by omega)
    refine .inr ⟨L1, s, L2, rfl, hfit, ?_⟩
    simp only [Option.map_some, hptr]

/-- **`kmalloc`** turns part of a free block into a used one, at least as large as the rounded size. -/
theorem Tiled.kmalloc (ht : Tiled h L) (want : Nat) :
    (h.kmalloc want = (h, 0) ∧ (want = 0 ∨ ∀ b ∈ L, b.free = true → b.size < align16 want)) ∨
    ∃ L' U1 U2 p s, (h.kmalloc want).2 = p ∧ p ≠ 0 ∧ Tiled (h.kmalloc want).1 L' ∧ align16 want ≤ s ∧
      owned heapBase L = U1 ++ U2 ∧ owned heapBase L' = U1 ++ (p, s) :: U2 := by
  rcases ht.kmalloc_cases want with hfail | ⟨L1, s, L2, rfl, hfit, hk⟩
  · exact .inl hfail
  obtain ⟨M, s', h1, h2, h3⟩ := ht.take (mul_mod_left _ _) hfit
  refine .inr ⟨L1 ++ ⟨s', false⟩ :: M, owned heapBase L1, owned (heapBase + total L1 + 32 + s) L2, heapBase + total L1 + 32, s',
    congrArg snd hk, by omega, ?_, h1, ?_, ?_⟩
  · rw [hk]
    exact h2
  · rw [owned_append, owned_free]
  · rw [owned_append, owned_used, h3]

theorem Row.kmalloc_mem (ht : Row h L) (hx : Clear heapBase L x)
    (hout : ∀ y ∈ placed heapBase L, y.2.free = true → x < y.1 + 32 ∨ y.1 + 32 + y.2.size ≤ x) :
    (h.kmalloc want).1.mem x = h.mem x := by
  rcases ht.kmalloc_cases want with ⟨hk, -⟩ | ⟨L1, s, L2, rfl, hfit, hk⟩
  · rw [hk]
  have hx' := (clear_append.1 hx).2
  have hxa := (clear_cons.1 hx').1
  have hown := hout (heapBase + total L1, ⟨s, true⟩) (by rw [placed_append]; simp [placed]) rfl
  obtain ⟨-, hseg, hto⟩ := ht.split
  rw [hk]
  refine (update_of_ne (by omega) _ _).trans ?_
  split
  · rename_i hbig
    have hr := hto.tail.reach
    have hend := heapEnd_lt
    have hb : 48 ≤ heapBase := by decide
    have hsize : h.size (heapBase + total L1) = s := hseg.1.size
    refine hseg.split_mem hto ?_ hx' hown
    rw [hsize] at hbig
    simp only at hr ⊢
    unfold w64 at hbig
    omega
  · rfl

/-! ## `kfree` -/

theorem Row.absorb (ht : Row h (L1 ++ b :: c :: L2)) :
    Row (h.absorb (heapBase + total L1) (heapBase + total L1 + 32 + b.size)) (L1 ++ ⟨b.size + 32 + c.size, true⟩ :: L2) := by
  obtain ⟨-, hs, hl⟩ := ht.split
  obtain ⟨h1, h2, h3⟩ := hs.absorb hl
  refine ht.edit h3 h2 h1 ⟨hl.pos, hl.start, fun x hx => ?_, ?_⟩
  · rcases mem_cons.1 hx with rfl | hx
    · have hb := hl.aligned b (by simp)
      have hc := hl.aligned c (by simp)
      simp only
      omega
    · exact hl.aligned x (by simp [hx])
  · have := hl.reach
    simp only [total] at this ⊢
    omega

theorem Row.absorb_mem (ht : Row h (L1 ++ b :: c :: L2)) (hx : Clear heapBase (L1 ++ b :: c :: L2) x) :
    (h.absorb (heapBase + total L1) (heapBase + total L1 + 32 + b.size)).mem x = h.mem x :=
  ht.split.2.1.absorb_mem ht.split.2.2 (clear_append.1 hx).2

theorem Row.joinNext (ht : Row h (L1 ++ ⟨s, true⟩ :: L2)) (ha : Apart L2) : let a := heapBase + total L1
    let r := if h.blkNext a ≠ 0 && h.blkIsFree (h.blkNext a) then h.absorb a (h.blkNext a) else h
    ∃ s' M, Row r (L1 ++ ⟨s', true⟩ :: M) ∧
    Apart M ∧ (∀ y ∈ M.head?, y.free = false) ∧
    owned (heapBase + total L1 + 32 + s') M = owned (heapBase + total L1 + 32 + s) L2 ∧
    ∀ x, Clear heapBase (L1 ++ ⟨s, true⟩ :: L2) x → Clear heapBase (L1 ++ ⟨s', true⟩ :: M) x ∧
      r.mem x = h.mem x := by
  dsimp only
  have hto := ht.split.2.2.tail
  rw [ht.blkNext]
  cases L2 with
  | nil =>
    rw [hto.link_nil]
    exact ⟨s, [], ht, ha, by simp, rfl, fun x hx => ⟨hx, rfl⟩⟩
  | cons c M =>
    have hpos := hto.pos
    have hfree : h.blkIsFree (heapBase + total L1 + 32 + s) = c.free :=
      ht.split.2.1.2.1.isFree hto.start (hto.aligned c mem_cons_self)
    rw [hto.link_cons, hfree]
    obtain ⟨cs, cf⟩ := c
    cases cf with
    | false =>
      simp only [Bool.and_false, Bool.false_eq_true, if_false]
      exact ⟨s, _, ht, ha, by simp, rfl, fun x hx => ⟨hx, trivial⟩⟩
    | true =>
      have hne : heapBase + total L1 + 32 + s ≠ 0 := by simp only at hpos; omega
      have ha' : Apart ([] ++ ⟨cs, true⟩ :: M) := ha
      obtain ⟨-, h2, -, h4⟩ := apart_free.1 ha'
      simp only [hne, ne_eq, not_false_eq_true, decide_true, Bool.and_self, if_true]
      refine ⟨s + 32 + cs, M, ht.absorb, h2, h4, ?_, fun x hx => ⟨hx.join, ht.absorb_mem hx⟩⟩
      rw [owned_free]
      congr 1
      omega

theorem Row.joinPrev (ht : Row h (L1 ++ ⟨s, true⟩ :: L2)) (ha : Apart L1) : let a := heapBase + total L1
    let r := if h.prev a ≠ 0 && h.blkIsFree (h.prev a) then h.absorb (h.prev a) a else h
    ∃ s' M, Row r (M ++ ⟨s', true⟩ :: L2) ∧ Apart M ∧ (∀ y ∈ M.getLast?, y.free = false) ∧
    owned heapBase (M ++ ⟨s', true⟩ :: L2) = owned heapBase (L1 ++ ⟨s, true⟩ :: L2) ∧
    ∀ x, Clear heapBase (L1 ++ ⟨s, true⟩ :: L2) x → r.mem x = h.mem x := by
  dsimp only
  rw [show h.prev (heapBase + total L1) = lastOf 0 heapBase L1 from ht.header.prev]
  rcases eq_nil_or_concat L1 with rfl | ⟨M, c, rfl⟩
  · exact ⟨s, [], ht, ha, by simp, rfl, fun x hx => rfl⟩
  have hlast : lastOf 0 heapBase (M ++ [c]) = heapBase + total M := by rw [lastOf_append]; rfl
  have ht' : Row h (M ++ c :: ⟨s, true⟩ :: L2) := by simpa using ht
  rw [concat_eq_append, hlast, ht'.isFree] at *
  obtain ⟨cs, cf⟩ := c
  cases cf with
  | false =>
    simp only [Bool.and_false, Bool.false_eq_true, if_false]
    exact ⟨s, _, ht, ha, by simp, rfl, fun _ _ => trivial⟩
  | true =>
    have hne : heapBase + total M ≠ 0 := ne_of_gt ht'.split.2.2.pos
    obtain ⟨h1, -, h3, -⟩ := apart_free.1 ha
    simp only [hne, ne_eq, not_false_eq_true, decide_true, Bool.and_self, if_true]
    have he : heapBase + total (M ++ [⟨cs, true⟩]) = heapBase + total M + 32 + cs := by
      simp only [total_append, total]
      omega
    rw [he]
    refine ⟨cs + 32 + s, M, ht'.absorb, h1, h3, ?_, fun x hx => ht'.absorb_mem (by simpa using hx)⟩
    rw [owned_append, append_assoc, owned_append, owned_free, singleton_append, owned_free, owned_free]
    congr 2
    omega

/-- **`kfree`** of a used block: its payload is no longer owned, and all the others are. -/
theorem Tiled.kfree (ht : Tiled h (L1 ++ ⟨s, false⟩ :: L2)) : ∃ L', Tiled (h.kfree (heapBase + total L1 + 32)) L' ∧
      owned heapBase L' = owned heapBase L1 ++ owned (heapBase + total L1 + 32 + s) L2 ∧
      ∀ x, Clear heapBase (L1 ++ ⟨s, false⟩ :: L2) x → (x < heapBase + total L1 + 32 ∨ heapBase + total L1 + 32 + s ≤ x) →
        (h.kfree (heapBase + total L1 + 32)).mem x = h.mem x := by
  obtain ⟨-, hseg, hto⟩ := ht.split
  obtain ⟨ha1, ha2⟩ := apart_used.1 ht.apart
  have hr := hto.tail.reach
  have hend := heapEnd_lt
  simp only at hr
  have hb : sub64 (heapBase + total L1 + 32) 32 = heapBase + total L1 := by unfold sub64 w64; omega
  have hmark := hseg.mark (f := true) hto
  set r := heapBase + total L1
  have hsize : (h.blkSetFree r).size r = s := hmark.1.size
  -- the poison stays inside the payload
  have hpoison : Row ((h.blkSetFree r).poisonFrom (heapBase + total L1 + 32) (s / 8)) (L1 ++ ⟨s, true⟩ :: L2) := by
    refine ht.edit (poisonFrom_head _) (fun x hx => ?_) ?_ hto.flag
    · rw [poisonFrom_frame (by omega)]
      exact update_of_ne (by omega) _ _
    · exact hmark.payload (fun x hx => poisonFrom_frame (by simp only at hx; omega))
  obtain ⟨s', M, h1, ha3, ha4, ho1, hm1⟩ := hpoison.joinNext ha2
  obtain ⟨s'', M', h2, ha5, ha6, ho2, hm2⟩ := h1.joinPrev ha1
  have hmagic : h.magic r = blockMagic := hseg.1.magic
  rw [Kheap.kfree, if_neg (by omega)]
  simp only [hb, hmagic, ne_eq, not_true_eq_false, if_false, hsize]
  refine ⟨M' ++ ⟨s'', true⟩ :: M, ⟨h2, apart_free.2 ⟨ha5, ha3, ha6, ha4⟩⟩, ?_, fun x hx hout => ?_⟩
  · rw [ho2, owned_append, owned_free, ho1]
  · have hx' := clear_append.1 hx
    have hxa := (clear_cons.1 hx'.2).1
    have hx1 := hm1 x (clear_append.2 ⟨hx'.1, clear_cons.2 ⟨hxa, (clear_cons.1 hx'.2).2⟩⟩)
    refine (hm2 x hx1.1).trans (hx1.2.trans ?_)
    rw [poisonFrom_frame (by omega)]
    exact update_of_ne (by omega) _ _

/-! ## Every run -/

theorem heapInit_eq (mem : Nat → Nat) : heapInit mem = (Kheap.mk mem heapBase).putHeader heapBase (heapSize - 32) 0 0 := by
  unfold heapInit putHeader
  generalize heapBase = a
  rfl

theorem heapInit_tiled (mem : Nat → Nat) : Tiled (heapInit mem) [⟨heapSize - 32, true⟩] := by
  have hsz : 32 ≤ heapSize := by unfold heapSize; omega
  have hlink : link (heapBase + 32 + (heapSize - 32)) = 0 := by
    rw [link, if_pos]
    unfold heapEnd
    omega
  rw [heapInit_eq]
  have hseg := putHeader_headerAt (h := ⟨mem, heapBase⟩) (q := 0) (n := 0) hlink.symm
  refine ⟨⟨rfl, ⟨hseg, trivial⟩, ?_, ?_⟩, isChain_singleton _⟩
  · simp only [total]
    omega
  · intro b hb
    rw [mem_singleton.1 hb]
    simp only [heapSize]

/-- The heap, with the pointers handed out and not freed yet and the sizes they were asked for with. -/
structure Pool where
  heap : Kheap
  live : List (Nat × Nat)

/-- The calls, and the stores of the owners into what they own: `v` into word `i` of the payload at `p`. -/
inductive Call where
  | kmalloc (want : Nat)
  | kfree (p : Nat)
  | store (p i v : Nat)

namespace Pool

def boot (mem : Nat → Nat) : Pool := ⟨heapInit mem, []⟩

def step (s : Pool) : Call → Pool × Nat
  | .kmalloc want =>
    let r := s.heap.kmalloc want
    (⟨r.1, if r.2 = 0 then s.live else (r.2, want) :: s.live⟩, r.2)
  | .kfree p => (⟨s.heap.kfree p, s.live.filter (fun e => e.1 ≠ p)⟩, 0)
  | .store p i v => (⟨s.heap.set (p + 8 * i) v, s.live⟩, 0)

/-- Sizes that do not wrap when rounded up; only live pointers are freed, and only live payloads stored into. -/
def Allows (s : Pool) : Call → Prop
  | .kmalloc want => want ≤ 2 ^ 64 - 16
  | .kfree p => p ∈ s.live.map Prod.fst
  | .store p i _ => ∃ want, (p, want) ∈ s.live ∧ 8 * i + 8 ≤ want

structure Holds (s : Pool) (L : List Block) : Prop where
  tiled : Tiled s.heap L
  nodup : (s.live.map Prod.fst).Nodup
  ptrs : ∀ p, p ∈ s.live.map Prod.fst ↔ p ∈ (owned heapBase L).map Prod.fst
  room : ∀ e ∈ s.live, ∃ size, (e.1, size) ∈ owned heapBase L ∧ e.2 ≤ size

/-- The same, whatever the sizes asked for: a size that wraps is rounded to 0. -/
structure Lives (s : Pool) (L : List Block) : Prop where
  tiled : Tiled s.heap L
  nodup : (s.live.map Prod.fst).Nodup
  ptrs : ∀ p, p ∈ s.live.map Prod.fst ↔ p ∈ (owned heapBase L).map Prod.fst
  room : ∀ e ∈ s.live, ∃ size, (e.1, size) ∈ owned heapBase L ∧ align16 e.2 ≤ size

variable {s : Pool} {L : List Block}

theorem boot_holds (mem : Nat → Nat) : Holds (boot mem) [⟨heapSize - 32, true⟩] where
  tiled := heapInit_tiled mem
  nodup := nodup_nil
  ptrs := fun p => by
    have hnil : owned heapBase [⟨heapSize - 32, true⟩] = [] := by rw [owned_free]; rfl
    rw [hnil]
    rfl
  room := fun _ he => absurd he not_mem_nil

end Pool

theorem mem_owned {a : Nat} : (x, s) ∈ owned a L ↔ ∃ y, (y, ⟨s, false⟩) ∈ placed a L ∧ x = y + 32 := by
  unfold owned
  constructor
  · intro hx
    obtain ⟨⟨y, sz, f⟩, hy, he⟩ := mem_map.1 hx
    obtain ⟨h1, h2⟩ := mem_filter.1 hy
    obtain ⟨rfl, rfl⟩ := Prod.mk.inj he
    have hf : f = false := by simpa using h2
    exact ⟨y, hf ▸ h1, rfl⟩
  · rintro ⟨y, hy, rfl⟩
    exact mem_map.2 ⟨_, mem_filter.2 ⟨hy, rfl⟩, rfl⟩

theorem owned_sorted (a : Nat) (L : List Block) : (owned a L).Pairwise (fun x y => x.1 + x.2 + 32 ≤ y.1) := by
  refine List.Pairwise.map _ (fun x y hxy => ?_) ((placed_sorted a L).filter _)
  omega

theorem owned_nodup (a : Nat) (L : List Block) : ((owned a L).map fst).Nodup := by
  refine List.Pairwise.map _ (fun x y hxy => ?_) (owned_sorted a L)
  omega

theorem exists_append_of_mem_owned {p : Nat} (hp : p ∈ (owned heapBase L).map fst) :
    ∃ L1 s L2, L = L1 ++ ⟨s, false⟩ :: L2 ∧ p = heapBase + total L1 + 32 := by
  obtain ⟨⟨x, s⟩, hx, rfl⟩ := mem_map.1 hp
  obtain ⟨y, hy, rfl⟩ := mem_owned.1 hx
  obtain ⟨L1, L2, rfl, hy1⟩ := exists_append_of_mem_placed hy
  exact ⟨L1, s, L2, rfl, by rw [← hy1]⟩

theorem owned_mid {L1 L2 : List Block} : owned heapBase (L1 ++ ⟨s, false⟩ :: L2) =
    owned heapBase L1 ++ (heapBase + total L1 + 32, s) :: owned (heapBase + total L1 + 32 + s) L2 := by
  rw [owned_append, owned_used]

theorem Tiled.owned_size {p sz : Nat} (ht : Tiled h L) (hp : (p, sz) ∈ owned heapBase L) :
    sz % 16 = 0 ∧ sz ≤ heapSize ∧ h.size (p - 32) = sz ∧ p % 16 = 0 := by
  obtain ⟨y, hy, rfl⟩ := mem_owned.1 hp
  obtain ⟨L1, L2, rfl, hy1⟩ := exists_append_of_mem_placed hy
  have hfill := ht.fill
  have hstart := ht.split.2.2.start
  rw [total_append, total] at hfill
  rw [← hy1] at hstart
  refine ⟨ht.aligned ⟨sz, false⟩ (by simp), by simp only at hfill; omega, ?_, by simp only at hstart; omega⟩
  have hsize := ht.header.size
  rw [← hy1] at hsize
  exact hsize

namespace Pool

variable {s : Pool} {L : List Block}

theorem Lives.kmalloc (hs : s.Lives L) (want : Nat) : ∃ L', (s.step (.kmalloc want)).1.Lives L' := by
  rcases hs.tiled.kmalloc want with ⟨h1, -⟩ | ⟨L', U1, U2, p, sz, h1, h2, h3, h4, h5, h6⟩
  · refine ⟨L, ?_⟩
    simp only [step, h1, if_true]
    exact hs
  have hnd := owned_nodup heapBase L'
  rw [h6, map_append, map_cons] at hnd
  have hp : p ∉ s.live.map fst := fun hp => by
    rw [hs.ptrs, h5, map_append] at hp
    exact (nodup_middle.1 hnd).notMem hp
  refine ⟨L', ?_⟩
  simp only [step, h1, if_neg h2]
  refine ⟨h3, nodup_cons.2 ⟨hp, hs.nodup⟩, fun q => ?_, fun e he => ?_⟩
  · have := hs.ptrs q
    rw [h5] at this
    rw [h6]
    simp only [map_cons, map_append, mem_cons, mem_append] at this ⊢
    tauto
  · rw [h6]
    rcases mem_cons.1 he with rfl | he
    · exact ⟨sz, by simp, h4⟩
    · obtain ⟨size, hm, hle⟩ := hs.room e he
      rw [h5] at hm
      exact ⟨size, by simp only [mem_append, mem_cons] at hm ⊢; tauto, hle⟩

variable {p i v want : Nat}

theorem Lives.kfree (hs : s.Lives L) (hp : p ∈ s.live.map Prod.fst) : ∃ L', (s.step (.kfree p)).1.Lives L' := by
  obtain ⟨L1, sz, L2, rfl, rfl⟩ := exists_append_of_mem_owned ((hs.ptrs p).1 hp)
  obtain ⟨L', h1, h2, -⟩ := hs.tiled.kfree
  have hnd := owned_nodup heapBase (L1 ++ ⟨sz, false⟩ :: L2)
  have hptrs := hs.ptrs
  have hroom := hs.room
  rw [owned_mid, map_append, map_cons] at hnd
  rw [owned_mid] at hptrs hroom
  generalize heapBase + total L1 + 32 = p at *
  have hout := (nodup_middle.1 hnd).notMem
  rw [← map_append, ← h2] at hout
  refine ⟨L', h1, ?_, fun q => ?_, fun e he => ?_⟩
  · exact (hs.nodup.sublist ((filter_sublist).map _))
  · have hq := hptrs q
    have hlive : q ∈ (s.live.filter (fun e => e.1 ≠ p)).map Prod.fst ↔ q ∈ s.live.map Prod.fst ∧ q ≠ p := by
      simp only [mem_map, mem_filter, decide_eq_true_eq]
      constructor
      · rintro ⟨e, ⟨h1, h2⟩, rfl⟩
        exact ⟨⟨e, h1, rfl⟩, h2⟩
      · rintro ⟨⟨e, h1, rfl⟩, h2⟩
        exact ⟨e, ⟨h1, h2⟩, rfl⟩
    refine hlive.trans ?_
    rw [hq]
    constructor
    · rintro ⟨h3, h4⟩
      rw [h2]
      simp only [map_append, map_cons, mem_append, mem_cons] at h3 ⊢
      tauto
    · intro h3
      refine ⟨?_, fun hx => hout (hx ▸ h3)⟩
      rw [h2] at h3
      simp only [map_append, map_cons, mem_append, mem_cons] at h3 ⊢
      tauto
  · obtain ⟨he1, he2⟩ := mem_filter.1 he
    obtain ⟨size, hm, hle⟩ := hroom e he1
    refine ⟨size, ?_, hle⟩
    rw [h2]
    simp only [decide_eq_true_eq] at he2
    simp only [mem_append, mem_cons, Prod.mk.injEq] at hm ⊢
    tauto

theorem Lives.store {sz : Nat} (hs : s.Lives L) (hp : (p, sz) ∈ owned heapBase L) (hi : 8 * i + 8 ≤ sz) :
    (s.step (.store p i v)).1.Lives L := by
  obtain ⟨y, hy, rfl⟩ := mem_owned.1 hp
  obtain ⟨L1, L2, rfl, hy1⟩ := exists_append_of_mem_placed hy
  obtain ⟨-, h2, h3⟩ := hs.tiled.split
  simp only at hy1
  refine ⟨⟨hs.tiled.edit rfl (fun x hx => ?_) (h2.payload fun x hx => ?_) h3, hs.tiled.apart⟩, hs.nodup, hs.ptrs, hs.room⟩
  · exact update_of_ne (by omega) _ _
  · refine update_of_ne ?_ _ _
    simp only at hx
    omega

theorem holds_iff : s.Holds L ↔ s.Lives L ∧ ∀ e ∈ s.live, e.2 ≤ 2 ^ 64 - 16 := by
  have hbig : heapSize ≤ 2 ^ 64 - 16 := by decide
  constructor
  · intro hs
    have hle : ∀ e ∈ s.live, e.2 ≤ 2 ^ 64 - 16 := fun e he => by
      obtain ⟨size, h1, h2⟩ := hs.room e he
      have := (hs.tiled.owned_size h1).2.1
      omega
    refine ⟨⟨hs.tiled, hs.nodup, hs.ptrs, fun e he => ?_⟩, hle⟩
    obtain ⟨size, h1, h2⟩ := hs.room e he
    have := (hs.tiled.owned_size h1).1
    exact ⟨size, h1, by rw [align16_eq (hle e he)]; omega⟩
  · rintro ⟨hs, hle⟩
    refine ⟨hs.tiled, hs.nodup, hs.ptrs, fun e he => ?_⟩
    obtain ⟨size, h1, h2⟩ := hs.room e he
    rw [align16_eq (hle e he)] at h2
    exact ⟨size, h1, by omega⟩

theorem Holds.kmalloc (hs : s.Holds L) (hw : want ≤ 2 ^ 64 - 16) : ∃ L', (s.step (.kmalloc want)).1.Holds L' := by
  obtain ⟨hl, hle⟩ := holds_iff.1 hs
  obtain ⟨L', hL'⟩ := hl.kmalloc want
  refine ⟨L', holds_iff.2 ⟨hL', ?_⟩⟩
  simp only [step]
  split
  · exact hle
  · exact forall_mem_cons.2 ⟨hw, hle⟩

theorem Holds.kfree (hs : s.Holds L) (hp : p ∈ s.live.map fst) : ∃ L', (s.step (.kfree p)).1.Holds L' := by
  obtain ⟨hl, hle⟩ := holds_iff.1 hs
  obtain ⟨L', hL'⟩ := hl.kfree hp
  exact ⟨L', holds_iff.2 ⟨hL', fun e he => hle e (mem_of_mem_filter he)⟩⟩

theorem Holds.store (hs : s.Holds L) (hp : (p, want) ∈ s.live) (hi : 8 * i + 8 ≤ want) :
    (s.step (.store p i v)).1.Holds L := by
  obtain ⟨hl, hle⟩ := holds_iff.1 hs
  obtain ⟨sz, hm, hsz⟩ := hs.room _ hp
  exact holds_iff.2 ⟨hl.store hm (by simp only at hsz; omega), hle⟩

theorem Holds.step (c : Call) (hs : s.Holds L) (hc : s.Allows c) : ∃ L', (s.step c).1.Holds L' := by
  cases c with
  | kmalloc want => exact hs.kmalloc hc
  | kfree p => exact hs.kfree hc
  | store p i v =>
    obtain ⟨want, h1, h2⟩ := hc
    exact ⟨L, hs.store h1 h2⟩

theorem Holds.single (hs : s.Holds L) (hl : s.live = []) : L = [⟨heapSize - 32, true⟩] := by
  have hfree : ∀ b ∈ L, b.free = true := by
    intro b hb
    by_contra hf
    obtain ⟨L1, L2, rfl⟩ := append_of_mem hb
    obtain ⟨sz, f⟩ := b
    have hf' : f = false := by simpa using hf
    subst hf'
    have := (hs.ptrs (heapBase + total L1 + 32)).2 (by rw [owned_mid]; simp)
    rw [hl] at this
    cases this
  have hfill := hs.tiled.fill
  have hap := hs.tiled.apart
  have hsz : 32 ≤ heapSize := by unfold heapSize; omega
  match L, hfree, hfill, hap with
  | [], _, h1, _ =>
    simp only [total] at h1
    omega
  | [⟨sz, f⟩], h0, h1, _ =>
    obtain rfl : f = true := h0 _ mem_cons_self
    simp only [total] at h1
    congr 2
    omega
  | b :: c :: L, h0, _, h2 =>
    exact absurd ⟨h0 b (by simp), h0 c (by simp)⟩ (isChain_cons_cons.1 h2).1

theorem Holds.block {e : Nat × Nat} (hs : s.Holds L) (he : e ∈ s.live) :
    ∃ a b, (a, b) ∈ placed heapBase L ∧ e.1 = a + 32 ∧ b.free = false ∧ e.2 ≤ b.size ∧ e.1 % 16 = 0 := by
  obtain ⟨sz, hm, hle⟩ := hs.room e he
  obtain ⟨a, ha, hea⟩ := mem_owned.1 hm
  obtain ⟨L1, L2, rfl, ha1⟩ := exists_append_of_mem_placed ha
  have h16 := hs.tiled.split.2.2.start
  rw [← ha1] at h16
  exact ⟨a, ⟨sz, false⟩, ha, hea, rfl, hle, by simp only at h16; omega⟩

/-- **The kernel heap over every run.**  Whatever the calls, and whatever the owners store into their payloads: the headers
from `g_head` on tile the window, with links both ways (`Seg`), sizes are multiples of 16 and no two free blocks are
neighbours; every live pointer is the 16-aligned payload of a used block that is large enough, and meets no header and no
other live payload; `kmalloc` fails only if no free block is large enough; and when nothing is live the window is one free
block again. -/
theorem heap_invariant (mem : Nat → Nat) (cs : List Call)
    (hcs : ∀ pre c post, cs = pre ++ c :: post → (run step (boot mem) pre).1.Allows c) :
    ∃ L, Tiled (run step (boot mem) cs).1.heap L ∧
      (∀ e ∈ (run step (boot mem) cs).1.live, ∃ a b, (a, b) ∈ placed heapBase L ∧ e.1 = a + 32 ∧ b.free = false ∧
        e.2 ≤ b.size ∧ e.1 % 16 = 0 ∧ ∀ y ∈ placed heapBase L, e.1 + b.size ≤ y.1 ∨ y.1 + 32 ≤ e.1) ∧
      (run step (boot mem) cs).1.live.Pairwise (fun e e' => e.1 + e.2 ≤ e'.1 ∨ e'.1 + e'.2 ≤ e.1) ∧
      (∀ want, want ≤ 2 ^ 64 - 16 → ((run step (boot mem) cs).1.heap.kmalloc want).2 = 0 →
        want = 0 ∨ ∀ b ∈ L, b.free = true → b.size < (want + 15) / 16 * 16) ∧
      ((run step (boot mem) cs).1.live = [] → L = [⟨heapSize - 32, true⟩]) := by
  obtain ⟨L, hL⟩ := run_inv (P := fun s => ∃ L, Holds s L) (C := Allows) (fun s c ⟨L, hs⟩ hc => hs.step c hc) cs (boot mem)
    ⟨_, boot_holds mem⟩ hcs
  generalize (run step (boot mem) cs).1 = s at hL ⊢
  refine ⟨L, hL.tiled, fun e he => ?_, ?_, fun want hw hz => ?_, hL.single⟩
  · obtain ⟨a, b, h1, h2, h3, h4, h5⟩ := hL.block he
    refine ⟨a, b, h1, h2, h3, h4, h5, fun y hy => ?_⟩
    by_cases hya : (a, b) = y
    · subst hya
      exact .inr (by simp only; omega)
    · have := placed_disjoint h1 hy hya
      simp only at this
      omega
  · refine (pairwise_map.1 hL.nodup).imp_of_mem fun {e e'} he he' hne => ?_
    obtain ⟨a, b, h1, h2, -, h3, -⟩ := hL.block he
    obtain ⟨a', b', h1', h2', -, h3', -⟩ := hL.block he'
    have := placed_disjoint h1 h1' (fun hx => hne (by rw [h2, h2', (Prod.mk.inj hx).1]))
    simp only at this
    omega
  · rcases hL.tiled.kmalloc want with ⟨-, h⟩ | ⟨L', U1, U2, p, sz, h1, h2, -⟩
    · rwa [align16_eq hw] at h
    · exact absurd (h1.symm.trans hz) h2

/-- A first block is asked for, written and freed again. -/
theorem heap_invariant_one_block :
    (run step (boot fun _ => 0) [.kmalloc 100, .store (heapBase + 32) 3 7, .kfree (heapBase + 32)]).1.live = [] ∧
    Tiled (run step (boot fun _ => 0) [.kmalloc 100, .store (heapBase + 32) 3 7, .kfree (heapBase + 32)]).1.heap
      [⟨heapSize - 32, true⟩] := by
  have hk : ((boot fun _ => 0).step (.kmalloc 100)).1.live = [(heapBase + 32, 100)] := by decide +kernel
  have hlive : (run step (boot fun _ => 0) [.kmalloc 100, .store (heapBase + 32) 3 7, .kfree (heapBase + 32)]).1.live = [] := by
    decide +kernel
  obtain ⟨L, h1, -, -, -, h2⟩ := heap_invariant (fun _ => 0)
    [.kmalloc 100, .store (heapBase + 32) 3 7, .kfree (heapBase + 32)] (by
      refine splits_cons.2 ⟨(by decide : 100 ≤ 2 ^ 64 - 16), splits_cons.2 ⟨⟨100, ?_, by decide⟩, splits_cons.2 ⟨?_, splits_nil⟩⟩⟩
      · rw [run_cons, run]
        exact hk ▸ mem_singleton.2 rfl
      · refine mem_map.2 ⟨(heapBase + 32, 100), ?_, rfl⟩
        rw [run_cons, run_cons, run]
        exact hk ▸ mem_singleton.2 rfl)
  exact ⟨hlive, h2 hlive ▸ h1⟩

end Pool
end Kheap
end Noxis
