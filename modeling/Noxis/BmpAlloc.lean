import Noxis.Volume
/-!
# BmpAlloc — a bitmap of several blocks (`_bmp_alloc`, `_bmp_free`)

The blocks of a bitmap one after the other are one byte store, and the block and byte loops of `_bmp_alloc` one scan of it,
with the bit index in a `uint32_t`.  While every index fits this is the scan of `Bitmap`; in a bitmap of more than 2^20
blocks bit `i + 2^32` has the index `i`.
-/
namespace Noxis.Bmp

open Bitmap Function

/-- The bytes of the blocks from `start` on. -/
def flat (d : Nat → Nat → UInt8) (start : Nat) : Nat → UInt8 := fun y => d ((start + y / 512) % 2 ^ 32) (y % 512)

def poke (d : Nat → Nat → UInt8) (start y : Nat) (b : UInt8) : Nat → Nat → UInt8 :=
  update d ((start + y / 512) % 2 ^ 32) (update (d ((start + y / 512) % 2 ^ 32)) (y % 512) b)

/-- The last `k` of `n` bytes.  The index of a bit of byte `y` is 2^32 * (y / 2^29) below its place, and `idx >= max_bits`
is asked of the place. -/
def scan (m : Nat → UInt8) (n maxBits : Nat) : Nat → Option Nat
  | 0 => none
  | k + 1 =>
    if m (n - (k + 1)) = 0xFF then scan m n maxBits k
    else (scanBits m (maxBits + (n - (k + 1)) / 2 ^ 29 * 2 ^ 32) (n - (k + 1)) 8).getD (scan m n maxBits k)

def bmpAlloc (d : Nat → Nat → UInt8) (start n maxBits : Nat) : (Nat → Nat → UInt8) × Nat :=
  match scan (flat d start) (512 * n) maxBits (512 * n) with
  | none => (d, 2 ^ 32 - 1)
  | some x => (poke d start (x / 8) (setBit (flat d start) x (x / 8)), x % 2 ^ 32)

def bmpFree (d : Nat → Nat → UInt8) (start i : Nat) : Nat → Nat → UInt8 :=
  poke d start (i / 8) (clearBit (flat d start) i (i / 8))

variable {d : Nat → Nat → UInt8} {m g : Nat → UInt8} {start n i j maxBits : Nat}

theorem scan_eq (hn : n ≤ 2 ^ 29) : ∀ k ≤ n, scan m n maxBits k = scanBytes m n maxBits k
  | 0, _ => rfl
  | k + 1, hk => by
    rw [scan, scanBytes, scan_eq hn k (by omega), Nat.div_eq_of_lt (show n - (k + 1) < 2 ^ 29 by omega), zero_mul]
    rfl

end Noxis.Bmp
