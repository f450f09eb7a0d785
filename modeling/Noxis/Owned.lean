import Mathlib
/-!
# Owned — blocks held through pointers

Owners `I` hold blocks through pointer slots `S`; pointer 0 is the empty one.  `Owned used D A P` says that the pointers
of the owners in `A` lie in the area `D`, are marked used, and that no block is held twice.  A free block can be linked
into one empty slot (`Owned.link`); pointers can be forgotten (`Owned.mono`); and an owner that leaves `A` takes the
marks of its blocks along (`Owned.release`).
-/
namespace Noxis

variable {I S : Type}

structure Owned (used : Nat → Bool) (D : Nat → Prop) (A : I → Prop) (P : I → S → Nat) : Prop where
  inData : ∀ i s, A i → P i s ≠ 0 → D (P i s)
  marked : ∀ i s, A i → P i s ≠ 0 → used (P i s) = true
  once : ∀ i s j t, A i → A j → P i s ≠ 0 → P i s = P j t → i = j ∧ s = t

namespace Owned

variable {used used' : Nat → Bool} {D : Nat → Prop} {A A' : I → Prop} {P P' : I → S → Nat}

theorem fresh (h : Owned used D A P) {b : Nat} (hb : used b = false) (h0 : b ≠ 0) {i : I} (hi : A i) (s : S) : P i s ≠ b := by
  rintro rfl
  rw [h.marked i s hi h0] at hb
  cases hb

theorem sub (h : Owned used D A P) (hu : ∀ n, used n = true → used' n = true)
    (hP : ∀ i s, A' i → P' i s ≠ 0 → A i ∧ P' i s = P i s) : Owned used' D A' P' where
  inData i s hi h0 := by
    obtain ⟨hA, heq⟩ := hP i s hi h0
    rw [heq]
    exact h.inData i s hA (heq ▸ h0)
  marked i s hi h0 := by
    obtain ⟨hA, heq⟩ := hP i s hi h0
    rw [heq]
    exact hu _ (h.marked i s hA (heq ▸ h0))
  once i s j t hi hj h0 heq := by
    obtain ⟨hAi, hi'⟩ := hP i s hi h0
    obtain ⟨hAj, hj'⟩ := hP j t hj (heq ▸ h0)
    exact h.once i s j t hAi hAj (hi' ▸ h0) (hi'.symm.trans (heq.trans hj'))

theorem mono (h : Owned used D A P) (hA : ∀ i, A' i → A i) (hu : ∀ n, used n = true → used' n = true)
    (hP : ∀ i s, A' i → P' i s ≠ 0 → P' i s = P i s) : Owned used' D A' P' :=
  h.sub hu (fun i s hi h0 => ⟨hA i hi, hP i s hi h0⟩)

/-- **A free block linked into one slot.** -/
theorem link (h : Owned used D A P) {i : I} {s : S} {b : Nat} (hfree : used b = false) (h0 : b ≠ 0) (hD : D b)
    (hu : ∀ n, used n = true → used' n = true) (hub : used' b = true) (hhere : P' i s = b)
    (hP : ∀ j t, A j → ¬ (j = i ∧ t = s) → P' j t = P j t) : Owned used' D A P' where
  inData j t hj hn := by
    by_cases hc : j = i ∧ t = s
    · obtain ⟨rfl, rfl⟩ := hc
      rw [hhere]
      exact hD
    · rw [hP j t hj hc] at hn ⊢
      exact h.inData j t hj hn
  marked j t hj hn := by
    by_cases hc : j = i ∧ t = s
    · obtain ⟨rfl, rfl⟩ := hc
      rw [hhere]
      exact hub
    · rw [hP j t hj hc] at hn ⊢
      exact hu _ (h.marked j t hj hn)
  once j t k w hj hk hn heq := by
    by_cases hc : j = i ∧ t = s <;> by_cases hc' : k = i ∧ w = s
    · exact ⟨hc.1.trans hc'.1.symm, hc.2.trans hc'.2.symm⟩
    · obtain ⟨rfl, rfl⟩ := hc
      rw [hhere, hP k w hk hc'] at heq
      exact absurd heq.symm (h.fresh hfree h0 hk w)
    · obtain ⟨rfl, rfl⟩ := hc'
      rw [hhere, hP j t hj hc] at heq
      exact absurd heq (h.fresh hfree h0 hj t)
    · rw [hP j t hj hc] at hn
      rw [hP j t hj hc, hP k w hk hc'] at heq
      exact h.once j t k w hj hk hn heq

/-- **An owner that leaves** may have the marks of its own blocks cleared. -/
theorem release (h : Owned used D A P) {i : I} (hi : A i) (hA : ∀ j, A' j → A j ∧ j ≠ i)
    (hu : ∀ n, used n = true → used' n = true ∨ ∃ s, P i s = n) : Owned used' D A' P where
  inData j t hj hn := h.inData j t (hA j hj).1 hn
  marked j t hj hn := by
    rcases hu _ (h.marked j t (hA j hj).1 hn) with hm | ⟨s, hs⟩
    · exact hm
    · exact absurd (h.once j t i s (hA j hj).1 hi hn hs.symm).1 (hA j hj).2
  once j t k w hj hk := h.once j t k w (hA j hj).1 (hA k hk).1

end Owned
end Noxis
