import Noxis.Kheap
/-!
# HeapFrame — what a heap call leaves alone

The headers, the poison and the payloads share one array of bytes.  `HeapByte L t` are the bytes a call may write when the
window holds the blocks `L`: the headers, the payloads of the free blocks, and the payload `t` the call is about.  A call
writes no other byte (`Pool.Lives.step_mem`), so the payloads of the other live pointers stay as they are.  The sizes asked
for are any 64-bit numbers here, those that wrap when rounded up included.
-/
namespace Noxis
namespace Kheap

open Function

/-- The byte at `y`; the memory holds a 64-bit word at each multiple of 8. -/
def byte (h : Kheap) (y : Nat) : Nat := h.mem (y / 8 * 8) / 256 ^ (y % 8) % 256

inductive HeapByte (L : List Block) (t : Option Nat) (x : Nat) : Prop
  | header (a : Nat) (b : Block) : (a, b) ∈ placed heapBase L → a ≤ x → x < a + 32 → HeapByte L t x
  | free (a : Nat) (b : Block) : (a, b) ∈ placed heapBase L → b.free = true → a + 32 ≤ x → x < a + 32 + b.size → HeapByte L t x
  | target (a : Nat) (b : Block) : (a, b) ∈ placed heapBase L → t = some (a + 32) → a + 32 ≤ x → x < a + 32 + b.size →
      HeapByte L t x

def Call.target : Call → Option Nat
  | .kmalloc _ => none
  | .kfree p => some p
  | .store p _ _ => some p

variable {h : Kheap} {L : List Block} {t : Option Nat} {x y : Nat}

theorem Row.placed_mod {a : Nat} {b : Block} (ht : Row h L) (hm : (a, b) ∈ placed heapBase L) : a % 16 = 0 ∧ b.size % 16 = 0 := by
  obtain ⟨L1, L2, rfl, ha⟩ := exists_append_of_mem_placed hm
  have hstart := ht.split.2.2.start
  rw [← ha] at hstart
  exact ⟨hstart, ht.aligned b (by simp)⟩

theorem HeapByte.word (ht : Row h L) (hx : HeapByte L t (y / 8 * 8)) : HeapByte L t y := by
  cases hx with
  | header a b hm h1 h2 =>
    have := ht.placed_mod hm
    exact .header a b hm (by omega) (by omega)
  | free a b hm hf h1 h2 =>
    have := ht.placed_mod hm
    exact .free a b hm hf (by omega) (by omega)
  | target a b hm hp h1 h2 =>
    have := ht.placed_mod hm
    exact .target a b hm hp (by omega) (by omega)

theorem clear_of_not_heapByte (hx : ¬ HeapByte L t x) : Clear heapBase L x := fun y hy => by
  by_contra hin
  exact hx (.header y.1 y.2 hy (by omega) (by omega))

theorem not_heapByte_of_used {a : Nat} {b : Block} (hm : (a, b) ∈ placed heapBase L) (hb : b.free = false) (ht : t ≠ some (a + 32))
    (h1 : a + 32 ≤ x) (h2 : x < a + 32 + b.size) : ¬ HeapByte L t x := by
  -- a byte of this block is in no other one
  have hsame : ∀ a' b', (a', b') ∈ placed heapBase L → a' ≤ x → x < a' + 32 + b'.size → (a, b) = (a', b') := by
    intro a' b' hm' h1' h2'
    by_contra hne
    have := placed_disjoint hm hm' hne
    simp only at this
    omega
  intro hx
  cases hx with
  | header a' b' hm' h1' h2' =>
    obtain ⟨rfl, rfl⟩ := Prod.mk.inj (hsame a' b' hm' h1' (by omega))
    omega
  | free a' b' hm' hf h1' h2' =>
    obtain ⟨rfl, rfl⟩ := Prod.mk.inj (hsame a' b' hm' (by omega) h2')
    rw [hb] at hf
    cases hf
  | target a' b' hm' hp h1' h2' =>
    obtain ⟨rfl, rfl⟩ := Prod.mk.inj (hsame a' b' hm' (by omega) h2')
    exact ht hp

namespace Pool

variable {s : Pool}

/-- Any 64-bit size may be asked for; only live pointers are freed, and only their blocks stored into. -/
def Permits (s : Pool) : Call → Prop
  | .kmalloc want => want < 2 ^ 64
  | .kfree p => p ∈ s.live.map Prod.fst
  | .store p i _ => p ∈ s.live.map Prod.fst ∧ 8 * i + 8 ≤ s.heap.size (p - 32)

theorem Lives.block {p : Nat} (hs : s.Lives L) (hp : p ∈ s.live.map Prod.fst) :
    (p - 32, ⟨s.heap.size (p - 32), false⟩) ∈ placed heapBase L ∧ 32 ≤ p ∧ (p, s.heap.size (p - 32)) ∈ owned heapBase L := by
  obtain ⟨⟨q, sz⟩, hm, rfl⟩ := List.mem_map.1 ((hs.ptrs p).1 hp)
  have hsz := (hs.tiled.owned_size hm).2.2.1
  obtain ⟨a, ha, he⟩ := mem_owned.1 hm
  simp only at hsz he ⊢
  rw [hsz]
  subst he
  exact ⟨ha, by omega, hm⟩

theorem boot_lives (mem : Nat → Nat) : Lives (boot mem) [⟨heapSize - 32, true⟩] := (holds_iff.1 (boot_holds mem)).1

theorem Lives.step (c : Call) (hs : s.Lives L) (hc : s.Permits c) : ∃ L', (s.step c).1.Lives L' := by
  cases c with
  | kmalloc want => exact hs.kmalloc want
  | kfree p => exact hs.kfree hc
  | store p i v => exact ⟨L, hs.store (hs.block hc.1).2.2 hc.2⟩

/-- **What a call writes**: nothing but the heap's own bytes and the payload it is about. -/
theorem Lives.step_mem (c : Call) (hs : s.Lives L) (hc : s.Permits c) (hx : ¬ HeapByte L c.target x) :
    (s.step c).1.heap.mem x = s.heap.mem x := by
  have hclear := clear_of_not_heapByte hx
  cases c with
  | kmalloc want =>
    refine hs.tiled.kmalloc_mem hclear fun y hy hfree => ?_
    by_contra hin
    exact hx (.free y.1 y.2 hy hfree (by omega) (by omega))
  | kfree p =>
    obtain ⟨L1, sz, L2, rfl, rfl⟩ := exists_append_of_mem_owned ((hs.ptrs p).1 hc)
    obtain ⟨-, -, -, hmem⟩ := hs.tiled.kfree
    refine hmem x hclear ?_
    by_contra hin
    exact hx (.target (heapBase + total L1) ⟨sz, false⟩ (by rw [placed_append]; simp [placed]) rfl (by omega) (by simp only; omega))
  | store p i v =>
    obtain ⟨hm, h32, -⟩ := hs.block hc.1
    refine update_of_ne (fun he => hx ?_) _ _
    have hi := hc.2
    exact .target (p - 32) _ hm (congrArg some (by omega)) (by omega) (by simp only; omega)

/-- **A heap call leaves the other allocations alone.**  Whatever was allocated, freed and stored before: a further call
changes no byte of a live payload it is not about, and every byte it does change is the heap's own or lies in the payload it
is about.  The payload of a pointer is its block; it has the bytes that were asked for unless their number wraps when rounded
up. -/
theorem heap_call_frame (mem : Nat → Nat) (cs : List Call)
    (hcs : ∀ pre c post, cs = pre ++ c :: post → (run step (boot mem) pre).1.Permits c) (c : Call)
    (hc : (run step (boot mem) cs).1.Permits c) : (∀ e ∈ (run step (boot mem) cs).1.live, c.target ≠ some e.1 → ∀ y, e.1 ≤ y →
      y < e.1 + (run step (boot mem) cs).1.heap.size (e.1 - 32) →
      ((run step (boot mem) cs).1.step c).1.heap.byte y = (run step (boot mem) cs).1.heap.byte y) ∧
    (∀ e ∈ (run step (boot mem) cs).1.live, e.2 ≤ 2 ^ 64 - 16 → e.2 ≤ (run step (boot mem) cs).1.heap.size (e.1 - 32)) ∧
    ∃ L, Tiled (run step (boot mem) cs).1.heap L ∧
      ∀ y, ((run step (boot mem) cs).1.step c).1.heap.byte y ≠ (run step (boot mem) cs).1.heap.byte y → HeapByte L c.target y := by
  obtain ⟨L, hL⟩ := run_inv (P := fun s => ∃ L, Lives s L) (C := Permits) (fun s c ⟨L, hs⟩ hc => hs.step c hc) cs (boot mem)
    ⟨_, boot_lives mem⟩ hcs
  generalize (run step (boot mem) cs).1 = s at hL hc ⊢
  have hbyte : ∀ y, ¬ HeapByte L c.target y → (s.step c).1.heap.byte y = s.heap.byte y := fun y hy => by
    rw [byte, hL.step_mem c hc (fun hx => hy (hx.word hL.tiled.toRow))]
    rfl
  refine ⟨fun e he ht y h1 h2 => hbyte y ?_, fun e he hle => ?_, L, hL.tiled, fun y hy => ?_⟩
  · obtain ⟨hm, h32, -⟩ := hL.block (List.mem_map_of_mem he)
    have hp : e.1 - 32 + 32 = e.1 := by omega
    exact not_heapByte_of_used hm rfl (by rwa [hp]) (by omega) (by simp only; omega)
  · obtain ⟨size, hm, hsize⟩ := hL.room e he
    rw [(hL.tiled.owned_size hm).2.2.1]
    rw [align16_eq hle] at hsize
    omega
  · by_contra hn
    exact hy (hbyte y hn)

/-- Two blocks, the second one written, and the first one freed. -/
theorem heap_call_frame_two : ((run step (boot fun _ => 0) [.kmalloc 100, .kmalloc 40, .store (heapBase + 176) 0 7]).1.step
      (.kfree (heapBase + 32))).1.heap.byte (heapBase + 176) = 7 := by
  have hlive : ((boot fun _ => 0).step (.kmalloc 100)).1.live = [(heapBase + 32, 100)] ∧
      (((boot fun _ => 0).step (.kmalloc 100)).1.step (.kmalloc 40)).1.live = [(heapBase + 176, 40), (heapBase + 32, 100)] := by
    decide +kernel
  have hsize : (((boot fun _ => 0).step (.kmalloc 100)).1.step (.kmalloc 40)).1.heap.size (heapBase + 176 - 32) = 48 := by
    decide +kernel
  have hlast : (run step (boot fun _ => 0) [.kmalloc 100, .kmalloc 40, .store (heapBase + 176) 0 7]).1.live =
      [(heapBase + 176, 40), (heapBase + 32, 100)] := hlive.2
  have hframe := (heap_call_frame (fun _ => 0) [.kmalloc 100, .kmalloc 40, .store (heapBase + 176) 0 7] (by
      refine splits_cons.2 ⟨(by decide : 100 < 2 ^ 64), splits_cons.2 ⟨(by decide : 40 < 2 ^ 64), splits_cons.2 ⟨?_, splits_nil⟩⟩⟩
      · refine ⟨?_, ?_⟩
        · rw [run_cons, run_cons, run, hlive.2]
          simp
        · rw [run_cons, run_cons, run, hsize]
          decide) (.kfree (heapBase + 32)) (show _ ∈ _ by rw [hlast]; simp)).1 (heapBase + 176, 40) (by rw [hlast]; simp)
    (by decide) (heapBase + 176) (le_refl _) (by decide +kernel)
  rw [hframe]
  decide +kernel

end Pool
end Kheap
end Noxis
