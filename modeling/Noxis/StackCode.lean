import Mathlib
/-!
# StackCode — pushes and pops on a stack of words

A core has registers, a stack pointer and a memory of 64-bit words; the stack grows down.  `Words m a ws` says that the
memory holds `ws` from `a` on.  `pushes_spec` and `pops_spec` are the two rules: a row of pushes leaves the registers' values
on the stack, the last one lowest, and a row of pops reads what is there.  Stack pointers are 64 bits wide and are multiples
of 8, so that a word never straddles two others.
-/
namespace Noxis

open List Function Nat
namespace StackCode

@[irreducible] def down (a : Nat) : Nat := (a + (2 ^ 64 - 8)) % 2 ^ 64

@[irreducible] def up (a : Nat) : Nat := (a + 8) % 2 ^ 64

theorem down_eq {a : Nat} (h8 : 8 ≤ a) (ha : a < 2 ^ 64) : down a = a - 8 := by
  unfold down
  omega

theorem up_eq {a : Nat} (ha : a + 8 < 2 ^ 64) : up a = a + 8 := by
  unfold up
  omega

def Words (m : Nat → Nat) : Nat → List Nat → Prop
  | _, [] => True
  | a, w :: ws => m a = w ∧ Words m (a + 8) ws

variable {m m' : Nat → Nat} {a : Nat} {ws vs : List Nat}

theorem Words.congr : ∀ {a : Nat} {ws : List Nat}, Words m a ws →
    (∀ x, a ≤ x → x < a + 8 * ws.length → m' x = m x) → Words m' a ws
  | _, [], _, _ => trivial
  | a, w :: ws, ⟨h1, h2⟩, hm => by
    rw [length_cons] at hm
    refine ⟨(hm a (le_refl _) (by omega)).trans h1, h2.congr fun x hx hx' => hm x (by omega) (by omega)⟩

theorem words_append : ∀ {a : Nat} {ws vs : List Nat}, Words m a (ws ++ vs) ↔ Words m a ws ∧ Words m (a + 8 * ws.length) vs
  | a, [], vs => by simp [Words]
  | a, w :: ws, vs => by
    have he : a + 8 * (ws.length + 1) = a + 8 + 8 * ws.length := by omega
    rw [cons_append, Words, Words, words_append, length_cons, he, and_assoc]

theorem Words.get : ∀ {a : Nat} {ws : List Nat}, Words m a ws → ∀ k < ws.length, m (a + 8 * k) = ws.getD k 0
  | _, [], _, _, hk => absurd hk (not_lt_zero _)
  | _, _ :: _, h, 0, _ => h.1
  | a, w :: ws, h, k + 1, hk => by
    have he : a + 8 * (k + 1) = a + 8 + 8 * k := by omega
    rw [he, h.2.get k (lt_of_succ_lt_succ hk)]
    rfl

theorem Words.set : ∀ {a : Nat} {ws : List Nat}, Words m a ws → ∀ (k v : Nat), k < ws.length →
    Words (update m (a + 8 * k) v) a (ws.set k v)
  | _, [], _, _, _, hk => absurd hk (not_lt_zero _)
  | a, w :: ws, h, 0, v, _ => ⟨update_self _ _ _, h.2.congr fun x hx _ => update_of_ne (by omega) _ _⟩
  | a, w :: ws, h, k + 1, v, hk => by
    have he : a + 8 * (k + 1) = a + 8 + 8 * k := by omega
    rw [he]
    exact ⟨(update_of_ne (by omega) _ _).trans h.1, h.2.set k v (lt_of_succ_lt_succ hk)⟩

def copy (m : Nat → Nat) (dst src : Nat) : Nat → Nat → Nat
  | 0 => m
  | n + 1 => update (copy m dst src n) (dst + 8 * n) (m (src + 8 * n))

theorem copy_frame {dst src x : Nat} : ∀ {n : Nat}, x < dst ∨ dst + 8 * n ≤ x → copy m dst src n x = m x
  | 0, _ => rfl
  | n + 1, hx => (update_of_ne (by omega) _ _).trans (copy_frame (n := n) (by omega))

theorem copy_get {dst src : Nat} : ∀ {n k : Nat}, k < n → copy m dst src n (dst + 8 * k) = m (src + 8 * k)
  | n + 1, k, hk => by
    by_cases he : k = n
    · subst he
      exact update_self _ _ _
    · exact (update_of_ne (by omega) _ _).trans (copy_get (by omega))

theorem words_of_get : ∀ {a : Nat} {ws : List Nat}, (∀ k < ws.length, m (a + 8 * k) = ws.getD k 0) → Words m a ws
  | _, [], _ => trivial
  | a, w :: ws, h => by
    refine ⟨h 0 (zero_lt_succ _), words_of_get fun k hk => ?_⟩
    have he : a + 8 + 8 * k = a + 8 * (k + 1) := by omega
    rw [he]
    exact h (k + 1) (succ_lt_succ hk)

theorem Words.copy {dst src : Nat} (h : Words m src ws) : Words (copy m dst src ws.length) dst ws :=
  words_of_get fun k hk => (copy_get hk).trans (h.get k hk)

def put (p : (Nat → Nat) × Nat) (v : Nat) : (Nat → Nat) × Nat := (update p.1 (p.2 - 8) v, p.2 - 8)

def puts (p : (Nat → Nat) × Nat) (vs : List Nat) : (Nat → Nat) × Nat := vs.foldl put p

theorem puts_cons (p : (Nat → Nat) × Nat) (v : Nat) (vs : List Nat) : puts p (v :: vs) = puts (put p v) vs := foldl_cons ..

/-- **A row of words put below one another**: the last one is the lowest. -/
theorem puts_spec : ∀ (vs : List Nat) (p : (Nat → Nat) × Nat), 8 * vs.length ≤ p.2 →
    (puts p vs).2 = p.2 - 8 * vs.length ∧ Words (puts p vs).1 (p.2 - 8 * vs.length) vs.reverse ∧
    ∀ x, x < p.2 - 8 * vs.length ∨ p.2 ≤ x → (puts p vs).1 x = p.1 x
  | [], _, _ => ⟨rfl, trivial, fun _ _ => rfl⟩
  | v :: vs, p, h8 => by
    rw [length_cons] at h8
    obtain ⟨h1, h2, h3⟩ := puts_spec vs (put p v) (by rw [put]; dsimp only; omega)
    have hsp : (put p v).2 - 8 * vs.length = p.2 - 8 * (v :: vs).length := by
      rw [put, length_cons]
      dsimp only
      omega
    have hlast : p.2 - 8 * (v :: vs).length + 8 * vs.reverse.length = p.2 - 8 := by
      rw [length_reverse, length_cons]
      omega
    have hlow : (put p v).2 = p.2 - 8 := rfl
    rw [hsp] at h1 h2 h3
    rw [hlow] at h3
    rw [puts_cons, reverse_cons, words_append, hlast]
    refine ⟨h1, ⟨h2, ?_, trivial⟩, fun x hx => ?_⟩
    · rw [h3 _ (.inr (le_refl _))]
      exact update_self _ _ _
    · rw [h3 x (by omega)]
      exact update_of_ne (by rw [length_cons] at hx; omega) _ _

/-! ## The core -/

variable {ρ : Type} [DecidableEq ρ]

structure Core (ρ : Type) where
  reg : ρ → Nat
  rsp : Nat
  mem : Nat → Nat

namespace Core

def pushVal (c : Core ρ) (v : Nat) : Core ρ := { c with rsp := down c.rsp, mem := update c.mem (down c.rsp) v }

def push (c : Core ρ) (r : ρ) : Core ρ := c.pushVal (c.reg r)

omit [DecidableEq ρ] in
theorem push_reg (c : Core ρ) (r : ρ) : (c.push r).reg = c.reg := by rw [push, pushVal]

omit [DecidableEq ρ] in
theorem push_rsp (c : Core ρ) (r : ρ) : (c.push r).rsp = down c.rsp := by rw [push, pushVal]

omit [DecidableEq ρ] in
theorem push_mem (c : Core ρ) (r : ρ) : (c.push r).mem = update c.mem (down c.rsp) (c.reg r) := by rw [push, pushVal]

def pop (c : Core ρ) (r : ρ) : Core ρ := { c with reg := update c.reg r (c.mem c.rsp), rsp := up c.rsp }

def pushes (c : Core ρ) (rs : List ρ) : Core ρ := rs.foldl push c

def pops (c : Core ρ) (rs : List ρ) : Core ρ := rs.foldl pop c

omit [DecidableEq ρ] in
theorem pushes_cons (c : Core ρ) (r : ρ) (rs : List ρ) : c.pushes (r :: rs) = (c.push r).pushes rs := foldl_cons ..

theorem pops_cons (c : Core ρ) (r : ρ) (rs : List ρ) : c.pops (r :: rs) = (c.pop r).pops rs := foldl_cons ..

omit [DecidableEq ρ] in
theorem pushes_eq : ∀ (rs : List ρ) (c : Core ρ), 8 * rs.length ≤ c.rsp → c.rsp < 2 ^ 64 →
    (c.pushes rs).reg = c.reg ∧ ((c.pushes rs).mem, (c.pushes rs).rsp) = puts (c.mem, c.rsp) (rs.map c.reg)
  | [], _, _, _ => ⟨rfl, rfl⟩
  | r :: rs, c, h8, hlt => by
    rw [length_cons] at h8
    have hd : down c.rsp = c.rsp - 8 := down_eq (by omega) hlt
    obtain ⟨h1, h2⟩ := pushes_eq rs (c.push r) (by rw [push_rsp]; omega) (by rw [push_rsp]; omega)
    have hput : put (c.mem, c.rsp) (c.reg r) = ((c.push r).mem, (c.push r).rsp) := by
      rw [put, push_mem, push_rsp, hd]
    rw [push_reg] at h1 h2
    rw [pushes_cons, map_cons, puts_cons, hput]
    exact ⟨h1, h2⟩

omit [DecidableEq ρ] in
/-- **A row of pushes**: the registers' values from the new stack pointer on, the last one first. -/
theorem pushes_spec (rs : List ρ) (c : Core ρ) (h8 : 8 * rs.length ≤ c.rsp) (hlt : c.rsp < 2 ^ 64) :
    (c.pushes rs).reg = c.reg ∧ (c.pushes rs).rsp = c.rsp - 8 * rs.length ∧
    Words (c.pushes rs).mem (c.rsp - 8 * rs.length) (rs.reverse.map c.reg) ∧
    ∀ x, x < c.rsp - 8 * rs.length ∨ c.rsp ≤ x → (c.pushes rs).mem x = c.mem x := by
  obtain ⟨h1, h2⟩ := pushes_eq rs c h8 hlt
  obtain ⟨h3, h4, h5⟩ := puts_spec (rs.map c.reg) (c.mem, c.rsp) (by rwa [length_map])
  rw [length_map] at h3 h4 h5
  rw [← h2] at h3 h4 h5
  rw [map_reverse]
  exact ⟨h1, h3, h4, h5⟩

theorem pops_mem : ∀ (rs : List ρ) (c : Core ρ), (c.pops rs).mem = c.mem
  | [], _ => rfl
  | r :: rs, c => by
    rw [pops_cons, pops_mem rs]
    rfl

/-- **A row of pops** reads the words from the stack pointer on. -/
theorem pops_spec : ∀ (rs : List ρ) (ws : List Nat) (c : Core ρ), rs.Nodup → ws.length = rs.length → Words c.mem c.rsp ws →
    c.rsp + 8 * rs.length < 2 ^ 64 → rs.map (c.pops rs).reg = ws ∧ (∀ r, r ∉ rs → (c.pops rs).reg r = c.reg r) ∧
    (c.pops rs).rsp = c.rsp + 8 * rs.length ∧ (c.pops rs).mem = c.mem
  | [], [], _, _, _, _, _ => ⟨rfl, fun _ _ => rfl, rfl, rfl⟩
  | r :: rs, w :: ws, c, hnd, hlen, hw, hlt => by
    rw [length_cons] at hlt ⊢
    have hu : (c.pop r).rsp = c.rsp + 8 := up_eq (by omega)
    obtain ⟨hr, hnd⟩ := nodup_cons.1 hnd
    obtain ⟨h1, h2, h3, h4⟩ := pops_spec rs ws (c.pop r) hnd (succ.inj hlen) (by rw [hu]; exact hw.2) (by omega)
    have hrr : (c.pop r).reg r = w := (update_self _ _ _).trans hw.1
    rw [pops_cons]
    refine ⟨?_, fun q hq => ?_, by rw [h3, hu]; omega, h4⟩
    · rw [map_cons, h1, h2 r hr, hrr]
    · rw [mem_cons, not_or] at hq
      rw [h2 q hq.2]
      exact update_of_ne hq.1 _ _

end Core
end StackCode
end Noxis
