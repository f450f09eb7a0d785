import Mathlib
/-!
# CStr — strings in a byte store

A byte store is a function from addresses to bytes.  `place m a bs` is the store after the bytes `bs` have been written from
the address `a` on, `Lies m a bs` says that they are there.  `cstr m n a` is the string at `a`, up to the first NUL, if there
is one among `n` bytes.
-/
namespace Noxis

open List

def place (m : Nat → UInt8) (a : Nat) (bs : List UInt8) : Nat → UInt8 :=
  fun x => if a ≤ x ∧ x < a + bs.length then bs.getD (x - a) 0 else m x

def Lies (m : Nat → UInt8) (a : Nat) (bs : List UInt8) : Prop := ∀ k (h : k < bs.length), m (a + k) = bs[k]

/-- The string at `a`: `while (s[len]) len++`, over `n` bytes at most. -/
def cstr (m : Nat → UInt8) : Nat → Nat → Option (List UInt8)
  | 0, _ => none
  | n + 1, a => if m a = 0 then some [] else (cstr m n (a + 1)).map (m a :: ·)

section Strings

variable {m m' : Nat → UInt8} {a : Nat} {bs : List UInt8}

theorem place_outside {x : Nat} (h : x < a ∨ a + bs.length ≤ x) : place m a bs x = m x := if_neg (by omega)

theorem Lies.place : Lies (place m a bs) a bs := fun k hk => by
  unfold Noxis.place
  rw [if_pos (by omega), Nat.add_sub_cancel_left, getD_eq_getElem _ _ hk]

theorem Lies.congr (h : Lies m a bs) (heq : ∀ k < bs.length, m' (a + k) = m (a + k)) : Lies m' a bs := fun k hk => by
  rw [heq k hk, h k hk]

theorem Lies.place_other {b : Nat} {cs : List UInt8} (h : Lies m a bs) (hd : a + bs.length ≤ b ∨ b + cs.length ≤ a) :
    Lies (Noxis.place m b cs) a bs := h.congr fun k hk => place_outside (by omega)

theorem Lies.append_right {cs : List UInt8} (h : Lies m a (bs ++ cs)) : Lies m (a + bs.length) cs := fun k hk => by
  have hget := h (bs.length + k) (by rw [length_append]; omega)
  rw [add_assoc, hget, getElem_append_right (Nat.le_add_right _ _)]
  simp only [Nat.add_sub_cancel_left]

theorem lies_cons {b : UInt8} : Lies m a (b :: bs) ↔ m a = b ∧ Lies m (a + 1) bs := by
  constructor
  · intro h
    refine ⟨h 0 (by rw [length_cons]; omega), fun k hk => ?_⟩
    have hget := h (k + 1) (by rw [length_cons]; omega)
    rw [add_assoc, add_comm 1 k]
    exact hget
  · rintro ⟨h1, h2⟩ k hk
    cases k with
    | zero => exact h1
    | succ k =>
      rw [getElem_cons_succ, ← h2 k (by rw [length_cons] at hk; omega), add_assoc, add_comm 1 k]

/-- **A terminated string is read back.** -/
theorem Lies.cstr : ∀ {s : List UInt8} {n a : Nat}, Lies m a (s ++ [0]) → 0 ∉ s → s.length < n → cstr m n a = some s
  | [], n + 1, a, h, _, _ => by
    rw [nil_append, lies_cons] at h
    rw [Noxis.cstr, if_pos h.1]
  | b :: s, n + 1, a, h, h0, hn => by
    rw [cons_append, lies_cons] at h
    rw [mem_cons, not_or] at h0
    rw [length_cons] at hn
    rw [Noxis.cstr, h.1, if_neg (Ne.symm h0.1), h.2.cstr h0.2 (by omega)]
    rfl

end Strings
end Noxis
