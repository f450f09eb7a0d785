import Mathlib
/-!
# Bytes — little-endian words in a byte store

A byte store is a function from offsets to bytes.  `leRead m a n` is the `n`-byte little-endian word at offset `a`;
`leWrite m a n v` stores one.  Reading back what was written gives the word modulo its width (`leRead_leWrite`), and a
read outside the written bytes is not changed (`leRead_leWrite_of_disjoint`).
-/
namespace Noxis

def leRead (m : Nat → UInt8) : Nat → Nat → Nat
  | _, 0 => 0
  | a, n + 1 => (m a).toNat + 256 * leRead m (a + 1) n

def leWrite (m : Nat → UInt8) (a n v : Nat) : Nat → UInt8 :=
  fun x => if a ≤ x ∧ x < a + n then UInt8.ofNat (v / 256 ^ (x - a)) else m x

theorem leWrite_of_lt {m : Nat → UInt8} {a n v x : Nat} (h : x < a) : leWrite m a n v x = m x := by
  unfold leWrite; rw [if_neg (by omega)]

theorem leWrite_of_ge (m : Nat → UInt8) (a n v x : Nat) (h : a + n ≤ x) : leWrite m a n v x = m x := by
  unfold leWrite; rw [if_neg (by omega)]

theorem leRead_congr (m m' : Nat → UInt8) : ∀ (n a : Nat), (∀ x, a ≤ x → x < a + n → m x = m' x) → leRead m a n = leRead m' a n
  | 0, _, _ => rfl
  | n + 1, a, h => by
    rw [leRead, leRead, h a (le_refl a) (by omega), leRead_congr m m' n (a + 1) (fun x h1 h2 => h x (by omega) (by omega))]

theorem leRead_lt (m : Nat → UInt8) : ∀ (n a : Nat), leRead m a n < 256 ^ n
  | 0, _ => by simp [leRead]
  | n + 1, a => by
    have ih := leRead_lt m n (a + 1)
    have hb := (m a).toNat_lt
    rw [leRead, Nat.pow_succ]
    omega

theorem toNat_ofNat_byte (v : Nat) : (UInt8.ofNat v).toNat = v % 256 := by simp

theorem leRead_leWrite_aux (m : Nat → UInt8) (v : Nat) : ∀ (k a n : Nat), k ≤ n →
    leRead (leWrite m a n v) (a + (n - k)) k = v / 256 ^ (n - k) % 256 ^ k
  | 0, _, _, _ => by simp [leRead, Nat.mod_one]
  | k + 1, a, n, hk => by
    have ih := leRead_leWrite_aux m v k a n (by omega)
    have hs : a + (n - (k + 1)) + 1 = a + (n - k) := by omega
    rw [leRead, hs, ih]
    have hbyte : leWrite m a n v (a + (n - (k + 1))) = UInt8.ofNat (v / 256 ^ (n - (k + 1))) := by
      unfold leWrite
      rw [if_pos (by omega), show a + (n - (k + 1)) - a = n - (k + 1) by omega]
    rw [hbyte, toNat_ofNat_byte, show n - k = n - (k + 1) + 1 by omega, Nat.pow_succ 256 (n - (k + 1)),
      ← Nat.div_div_eq_div_mul, Nat.pow_succ', Nat.mod_mul]

theorem leRead_leWrite (m : Nat → UInt8) (a n v : Nat) : leRead (leWrite m a n v) a n = v % 256 ^ n := by
  have h := leRead_leWrite_aux m v n a n (le_refl n)
  simpa using h

theorem leRead_leWrite_of_disjoint {m : Nat → UInt8} {a n v b k : Nat} (h : b + k ≤ a ∨ a + n ≤ b) :
    leRead (leWrite m a n v) b k = leRead m b k := by
  apply leRead_congr
  intro x h1 h2
  rcases h with h | h
  · exact leWrite_of_lt (by omega)
  · exact leWrite_of_ge m a n v x (by omega)

theorem leRead_zero : ∀ (n a : Nat), leRead (fun _ => 0) a n = 0
  | 0, _ => rfl
  | n + 1, a => by rw [leRead, leRead_zero n (a + 1)]; rfl

end Noxis
