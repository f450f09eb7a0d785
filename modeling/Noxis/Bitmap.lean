import Mathlib
/-!
# Bitmap — allocation bits in a byte store

`bitAt m i` is bit `i` of the byte store `m`, lowest bit of byte 0 first.  `firstClear m n max` scans `n` bytes for the
first clear bit, passing over full bytes and giving up at bit `max`; `firstClear_some` and `firstClear_none` say that
this is the least clear bit below both bounds.  `clearCount` counts the clear bits, and moves by one with every bit that
really changes (`clearCount_setBit`, `clearCount_clearBit`).
-/
namespace Noxis

open Finset
namespace Bitmap

def bitAt (m : Nat → UInt8) (i : Nat) : Bool := (m (i / 8)).toNat.testBit (i % 8)

def setBit (m : Nat → UInt8) (i : Nat) : Nat → UInt8 :=
  fun x => if x = i / 8 then m x ||| UInt8.ofNat (2 ^ (i % 8)) else m x

def clearBit (m : Nat → UInt8) (i : Nat) : Nat → UInt8 :=
  fun x => if x = i / 8 then m x &&& ~~~ UInt8.ofNat (2 ^ (i % 8)) else m x

theorem mask_toNat (b : Nat) (hb : b < 8) : (UInt8.ofNat (2 ^ b)).toNat = 2 ^ b := by
  rw [UInt8.toNat_ofNat']
  exact Nat.mod_eq_of_lt (Nat.pow_lt_pow_right (by decide) hb)

theorem bitAt_setBit {m : Nat → UInt8} {i j : Nat} : bitAt (setBit m i) j = (decide (j = i) || bitAt m j) := by
  unfold bitAt setBit
  by_cases h : j / 8 = i / 8
  · rw [if_pos h, UInt8.toNat_or, Nat.testBit_or, mask_toNat _ (Nat.mod_lt _ (by decide)), Nat.testBit_two_pow,
      Bool.or_comm, h]
    congr 1
    exact decide_eq_decide.2 (by omega)
  · rw [if_neg h, decide_eq_false (by rintro rfl; exact h rfl), Bool.false_or]

theorem testBit_not_mask (v b i : Nat) (hv : v < 256) (hb : b < 8) :
    (v &&& (255 - 2 ^ b)).testBit i = (v.testBit i && !decide (i = b)) := by
  rw [Nat.testBit_and]
  by_cases hi : i < 8
  · have hmask : ∀ b < 8, ∀ i < 8, (255 - 2 ^ b).testBit i = !decide (i = b) := by decide
    rw [hmask b hb i hi]
  · have hlt : v < 2 ^ i := lt_of_lt_of_le hv (Nat.pow_le_pow_right (n := 2) (by decide) (by omega : 8 ≤ i))
    rw [Nat.testBit_lt_two_pow hlt, Bool.false_and, Bool.false_and]

theorem bitAt_clearBit (m : Nat → UInt8) (i j : Nat) : bitAt (clearBit m i) j = (bitAt m j && !decide (j = i)) := by
  unfold bitAt clearBit
  by_cases h : j / 8 = i / 8
  · have hb : i % 8 < 8 := Nat.mod_lt _ (by decide)
    rw [if_pos h, UInt8.toNat_and, UInt8.toNat_not, mask_toNat _ hb, show UInt8.size - 1 - 2 ^ (i % 8) = 255 - 2 ^ (i % 8)
      from rfl, testBit_not_mask _ _ _ (UInt8.toNat_lt _) hb]
    congr 2
    exact decide_eq_decide.2 (by omega)
  · rw [if_neg h, decide_eq_false (by rintro rfl; exact h rfl)]
    simp

/-! ## The scan -/

/-- Bits `8 - k` to 7 of one byte: `some none` when the scan gives up at `max`, `none` when it goes on to the next byte. -/
def scanBits (m : Nat → UInt8) (max byte : Nat) : Nat → Option (Option Nat)
  | 0 => none
  | k + 1 =>
    if max ≤ byte * 8 + (7 - k) then some none
    else if bitAt m (byte * 8 + (7 - k)) then scanBits m max byte k
    else some (some (byte * 8 + (7 - k)))

def scanBytes (m : Nat → UInt8) (n max : Nat) : Nat → Option Nat
  | 0 => none
  | k + 1 =>
    if m (n - (k + 1)) = 0xFF then scanBytes m n max k
    else (scanBits m max (n - (k + 1)) 8).getD (scanBytes m n max k)

def firstClear (m : Nat → UInt8) (n max : Nat) : Option Nat := scanBytes m n max n

def SetBelow (m : Nat → UInt8) (i : Nat) : Prop := ∀ j < i, bitAt m j = true

variable {m : Nat → UInt8} {i n max : Nat}

theorem SetBelow.succ (h : SetBelow m i) (hi : bitAt m i = true) : SetBelow m (i + 1) := by
  intro j hj
  rcases Nat.lt_succ_iff_lt_or_eq.1 hj with hj | rfl
  · exact h j hj
  · exact hi

theorem bitAt_of_full (m : Nat → UInt8) (byte b : Nat) (h : m byte = 0xFF) (hb : b < 8) : bitAt m (byte * 8 + b) = true := by
  unfold bitAt
  rw [show (byte * 8 + b) / 8 = byte by omega, show (byte * 8 + b) % 8 = b by omega, h]
  revert hb
  revert b
  decide

theorem SetBelow.full {byte : Nat} (h : SetBelow m (byte * 8)) (hf : m byte = 0xFF) : SetBelow m ((byte + 1) * 8) := by
  intro j hj
  by_cases hlt : j < byte * 8
  · exact h j hlt
  · rw [show j = byte * 8 + (j - byte * 8) by omega]
    exact bitAt_of_full m byte _ hf (by omega)

def Answers (m : Nat → UInt8) (max bound : Nat) : Option Nat → Prop
  | some i => i < max ∧ i < bound ∧ bitAt m i = false ∧ SetBelow m i
  | none => SetBelow m (min max bound)

theorem scanBits_spec (m : Nat → UInt8) (max byte bound : Nat) (hb : byte * 8 + 8 ≤ bound) : ∀ k ≤ 8,
    SetBelow m (byte * 8 + (8 - k)) → (scanBits m max byte k = none ∧ SetBelow m ((byte + 1) * 8)) ∨
      ∃ r, scanBits m max byte k = some r ∧ Answers m max bound r
  | 0, _, h => .inl ⟨rfl, by rwa [show (byte + 1) * 8 = byte * 8 + (8 - 0) by omega]⟩
  | k + 1, hk, h => by
    rw [show 8 - (k + 1) = 7 - k by omega] at h
    rw [scanBits]
    by_cases hmax : max ≤ byte * 8 + (7 - k)
    · rw [if_pos hmax]
      exact .inr ⟨none, rfl, fun j hj => h j (by omega)⟩
    rw [if_neg hmax]
    cases hbit : bitAt m (byte * 8 + (7 - k)) with
    | true =>
      rw [if_pos rfl]
      refine scanBits_spec m max byte bound hb k (by omega) ?_
      rw [show byte * 8 + (8 - k) = byte * 8 + (7 - k) + 1 by omega]
      exact h.succ hbit
    | false => exact .inr ⟨some _, by simp, by omega, by omega, hbit, h⟩

theorem scanBytes_spec (m : Nat → UInt8) (n max : Nat) : ∀ k ≤ n, SetBelow m ((n - k) * 8) →
    Answers m max (n * 8) (scanBytes m n max k)
  | 0, _, h => fun j hj => h j (by omega)
  | k + 1, hk, h => by
    have hs : n - (k + 1) + 1 = n - k := by omega
    rw [scanBytes]
    by_cases hf : m (n - (k + 1)) = 0xFF
    · rw [if_pos hf]
      exact scanBytes_spec m n max k (by omega) (hs ▸ h.full hf)
    rw [if_neg hf]
    rcases scanBits_spec m max (n - (k + 1)) (n * 8) (by omega) 8 (le_refl 8) (by simpa using h)
      with ⟨he, hset⟩ | ⟨r, he, hr⟩
    · rw [he]
      exact scanBytes_spec m n max k (by omega) (hs ▸ hset)
    · rw [he]
      exact hr

theorem firstClear_spec (m : Nat → UInt8) (n max : Nat) : Answers m max (n * 8) (firstClear m n max) :=
  scanBytes_spec m n max n (le_refl n) (fun j hj => by omega)

/-- **The scan finds the least clear bit.** -/
theorem firstClear_some (h : firstClear m n max = some i) : i < max ∧ i < n * 8 ∧ bitAt m i = false ∧ SetBelow m i := by
  have hs := firstClear_spec m n max
  rw [h] at hs
  exact hs

theorem firstClear_none (h : firstClear m n max = none) : SetBelow m (min max (n * 8)) := by
  have hs := firstClear_spec m n max
  rw [h] at hs
  exact hs

/-! ## Counting clear bits -/

def clearCount (m : Nat → UInt8) (n : Nat) : Nat := ((Finset.range n).filter (fun i => bitAt m i = false)).card

theorem clearCount_congr {m' : Nat → UInt8} (h : ∀ i < n, bitAt m' i = bitAt m i) : clearCount m' n = clearCount m n := by
  unfold clearCount
  congr 1
  exact filter_congr (fun i hi => by rw [h i (mem_range.1 hi)])

theorem clearCount_setBit (m : Nat → UInt8) (n i : Nat) (hi : i < n) (hc : bitAt m i = false) :
    clearCount (setBit m i) n + 1 = clearCount m n := by
  have hmem : i ∈ (range n).filter (fun j => bitAt m j = false) :=
    mem_filter.2 ⟨mem_range.2 hi, hc⟩
  have heq : (range n).filter (fun j => bitAt (setBit m i) j = false)
      = ((range n).filter (fun j => bitAt m j = false)).erase i := by
    ext j
    simp only [mem_filter, mem_erase, bitAt_setBit, Bool.or_eq_false_iff, decide_eq_false_iff_not]
    tauto
  unfold clearCount
  rw [heq]
  exact card_erase_add_one hmem

theorem clearCount_clearBit (m : Nat → UInt8) (n i : Nat) (hi : i < n) (hc : bitAt m i = true) :
    clearCount (clearBit m i) n = clearCount m n + 1 := by
  have hclear : bitAt (clearBit m i) i = false := by simp [bitAt_clearBit]
  rw [← clearCount_setBit (clearBit m i) n i hi hclear]
  congr 1
  apply clearCount_congr
  intro j _
  rw [bitAt_setBit, bitAt_clearBit]
  by_cases hj : j = i
  · subst hj; simp [hc]
  · simp [hj]

theorem clearCount_le (m : Nat → UInt8) (n : Nat) : clearCount m n ≤ n :=
  (card_filter_le _ _).trans (le_of_eq (card_range n))

theorem clearCount_eq_zero (h : SetBelow m n) : clearCount m n = 0 := by
  unfold clearCount
  rw [card_eq_zero, filter_eq_empty_iff]
  intro i hi
  rw [h i (mem_range.1 hi)]
  decide

end Bitmap
end Noxis
