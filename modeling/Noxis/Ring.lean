import Mathlib
/-!
# Ring — a bounded queue in a circular array

`head` is the next cell to read, `tail` the next to write, `count` the number of cells in between, so that a full and an
empty ring differ in `count` only.  `Ring.contents` walks the array from `head`: pushing appends to it
(`Ring.contents_push`), popping takes its first element (`Ring.contents_pop`).
-/
namespace Noxis

open List Function

structure Ring (α : Type) where
  buf : Nat → α
  head : Nat
  tail : Nat
  count : Nat

namespace Ring

variable {α : Type} {cap : Nat} {r : Ring α}

def push (cap : Nat) (r : Ring α) (x : α) : Ring α :=
  { buf := Function.update r.buf r.tail x, head := r.head, tail := (r.tail + 1) % cap, count := r.count + 1 }

def pop (cap : Nat) (r : Ring α) : Ring α :=
  { buf := r.buf, head := (r.head + 1) % cap, tail := r.tail, count := r.count - 1 }

def contents (cap : Nat) (r : Ring α) : List α := (List.range r.count).map (fun k => r.buf ((r.head + k) % cap))

structure Ok (cap : Nat) (r : Ring α) : Prop where
  head : r.head < cap
  count : r.count ≤ cap
  tail : r.tail = (r.head + r.count) % cap

theorem length_contents (cap : Nat) (r : Ring α) : (r.contents cap).length = r.count := by
  simp [contents]

theorem Ok.push (h : r.Ok cap) (hc : r.count < cap) (x : α) : (r.push cap x).Ok cap := by
  refine ⟨h.head, hc, ?_⟩
  unfold Ring.push
  simp only
  rw [h.tail, Nat.mod_add_mod, add_assoc]

theorem Ok.pop (h : r.Ok cap) (hc : 0 < r.count) : (r.pop cap).Ok cap := by
  have hh := h.head
  refine ⟨Nat.mod_lt _ (by omega), ?_, ?_⟩
  · have := h.count
    unfold Ring.pop
    simp only
    omega
  · unfold Ring.pop
    simp only
    rw [h.tail, Nat.mod_add_mod, show r.head + 1 + (r.count - 1) = r.head + r.count by omega]

theorem Ok.tail_ne (h : r.Ok cap) (hc : r.count < cap) {k : Nat} (hk : k < r.count) : (r.head + k) % cap ≠ r.tail := by
  have hh := h.head
  rw [h.tail]
  intro heq
  have h1 := Nat.mod_add_div (r.head + k) cap
  have h2 := Nat.mod_add_div (r.head + r.count) cap
  rw [heq] at h1
  -- both sums lie within one turn of each other, so their quotients differ by at most one
  have hd : r.count - k = cap * ((r.head + r.count) / cap) - cap * ((r.head + k) / cap) := by omega
  rw [← Nat.mul_sub] at hd
  have hlt : r.count - k < cap := by omega
  rcases Nat.eq_zero_or_pos ((r.head + r.count) / cap - (r.head + k) / cap) with hz | hp
  · rw [hz, mul_zero] at hd
    omega
  · have := Nat.le_mul_of_pos_right cap hp
    omega

theorem contents_push (h : r.Ok cap) (hc : r.count < cap) (x : α) : (r.push cap x).contents cap = r.contents cap ++ [x] := by
  unfold contents
  show (List.range (r.count + 1)).map _ = _
  rw [range_succ, map_append, map_singleton]
  congr 1
  · apply map_congr_left
    intro k hk
    exact update_of_ne (h.tail_ne hc (mem_range.1 hk)) _ _
  · show [update r.buf r.tail x ((r.head + r.count) % cap)] = [x]
    rw [← h.tail, update_self]

theorem contents_pop (h : r.Ok cap) (hc : 0 < r.count) : r.contents cap = r.buf r.head :: (r.pop cap).contents cap := by
  unfold contents
  obtain ⟨n, hn⟩ : ∃ n, r.count = n + 1 := ⟨r.count - 1, by omega⟩
  show _ = r.buf r.head :: (List.range (r.count - 1)).map (fun k => r.buf (((r.head + 1) % cap + k) % cap))
  rw [hn, range_succ_eq_map, map_cons, add_zero, Nat.mod_eq_of_lt h.head, map_map, Nat.add_sub_cancel]
  congr 1
  apply map_congr_left
  intro k _
  show r.buf ((r.head + (k + 1)) % cap) = r.buf (((r.head + 1) % cap + k) % cap)
  rw [Nat.mod_add_mod, show r.head + 1 + k = r.head + (k + 1) by omega]

end Ring
end Noxis
