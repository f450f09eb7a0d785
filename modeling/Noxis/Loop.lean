import Mathlib
/-!
# Loop — counted loops that may stop early

`forUpTo n body s` runs `body 0`, …, `body (n - 1)` on a state, stopping at the first iteration that answers `false` (the
`return` inside a `for`).  `forUpTo_inv` is its invariant rule: what one iteration keeps, every completed loop keeps, and
an early exit satisfies whatever an iteration that stops guarantees.  `alongUpTo` is what its turns record.
-/
namespace Noxis

variable {σ : Type}

/-- `for (i = 0; i < n; i++) if (!body(i)) return;` over a state. -/
def forUpTo (body : Nat → σ → σ × Bool) : Nat → σ → σ × Bool
  | 0, s => (s, true)
  | n + 1, s =>
    match forUpTo body n s with
    | (s', true) => body n s'
    | (s', false) => (s', false)

theorem forUpTo_succ_of_true (body : Nat → σ → σ × Bool) (n : Nat) (s s' : σ) (h : forUpTo body n s = (s', true)) :
    forUpTo body (n + 1) s = body n s' := by
  rw [forUpTo, h]

theorem forUpTo_succ_of_false (body : Nat → σ → σ × Bool) (n : Nat) (s s' : σ) (h : forUpTo body n s = (s', false)) :
    forUpTo body (n + 1) s = (s', false) := by
  rw [forUpTo, h]

/-- **The invariant rule.**  `P i` holds before iteration `i`; `Q` is what an iteration that stops guarantees. -/
theorem forUpTo_inv (body : Nat → σ → σ × Bool) (P : Nat → σ → Prop) (Q : σ → Prop) : ∀ (n : Nat) (s : σ), P 0 s →
      (∀ i s, i < n → P i s → ((body i s).2 = true → P (i + 1) (body i s).1) ∧ ((body i s).2 = false → Q (body i s).1)) →
      ((forUpTo body n s).2 = true → P n (forUpTo body n s).1) ∧ ((forUpTo body n s).2 = false → Q (forUpTo body n s).1)
  | 0, s, h0, _ => ⟨fun _ => h0, fun h => by cases h⟩
  | n + 1, s, h0, hstep => by
    obtain ⟨ih1, ih2⟩ := forUpTo_inv body P Q n s h0 (fun i s hi => hstep i s (by omega))
    cases hr : forUpTo body n s with
    | mk s' ok =>
      rw [hr] at ih1 ih2
      cases ok with
      | true =>
        rw [forUpTo_succ_of_true body n s s' hr]
        exact hstep n s' (by omega) (ih1 rfl)
      | false =>
        rw [forUpTo_succ_of_false body n s s' hr]
        exact ⟨fun h => (by cases h), fun _ => ih2 rfl⟩

/-- **What every iteration keeps, the loop keeps**, completed or not. -/
theorem forUpTo_keeps (body : Nat → σ → σ × Bool) (P : σ → Prop) (n : Nat) (hstep : ∀ i s, i < n → P s → P (body i s).1)
    (s : σ) (h : P s) : P (forUpTo body n s).1 := by
  obtain ⟨h1, h2⟩ := forUpTo_inv body (fun _ => P) P n s h
    (fun i s hi hs => ⟨fun _ => hstep i s hi hs, fun _ => hstep i s hi hs⟩)
  cases hb : (forUpTo body n s).2 with
  | true => exact h1 hb
  | false => exact h2 hb

/-- How a step that may return early ends: it goes on with `P` or with the failure `F`, or it returns with `Q`. -/
structure Ends (F Q P : σ → Prop) (r : σ × Bool) : Prop where
  on : r.2 = true → F r.1 ∨ P r.1
  early : r.2 = false → Q r.1

theorem Ends.go {F Q P : σ → Prop} {s : σ} (h : P s) : Ends F Q P (s, true) := ⟨fun _ => .inr h, fun hc => by cases hc⟩

theorem Ends.or {F P : σ → Prop} {r : σ × Bool} (h : Ends F F P r) : F r.1 ∨ (r.2 = true ∧ P r.1) := by
  cases hr : r.2 with
  | false => exact .inl (h.early hr)
  | true => exact (h.on hr).imp_right fun hp => ⟨rfl, hp⟩

theorem Ends.of_or {F P : σ → Prop} {r : σ × Bool} (h : F r.1 ∨ (r.2 = true ∧ P r.1)) : Ends F F P r := by
  rcases h with h | ⟨hr, h⟩
  · exact ⟨fun _ => .inl h, fun _ => h⟩
  · exact ⟨fun _ => .inr h, fun hc => by rw [hr] at hc; cases hc⟩

/-- **The rule with a failure that sticks**: once `F` holds it goes on holding; until then every iteration keeps the
invariant or ends the loop with `Q`. -/
theorem forUpTo_ends {b : Nat → σ → σ × Bool} {F Q : σ → Prop} {P : Nat → σ → Prop} (hF : ∀ i s, F s → F (b i s).1)
    (hQ : ∀ s, F s → Q s) (n : Nat) (s : σ) (h0 : P 0 s)
    (hstep : ∀ i s, i < n → P i s → Ends F Q (P (i + 1)) (b i s)) : Ends F Q (P n) (forUpTo b n s) := by
  obtain ⟨h1, h2⟩ := forUpTo_inv b (fun i s => F s ∨ P i s) Q n s (.inr h0) (fun i s hi hs => by
    rcases hs with hs | hs
    · exact ⟨fun _ => .inl (hF i s hs), fun _ => hQ _ (hF i s hs)⟩
    · exact ⟨(hstep i s hi hs).on, (hstep i s hi hs).early⟩)
  exact ⟨h1, h2⟩

/-! ## What a loop does on the way -/

theorem forUpTo_true_of_le {body : Nat → σ → σ × Bool} {s : σ} : ∀ {n i : Nat}, (forUpTo body n s).2 = true → i ≤ n →
    (forUpTo body i s).2 = true
  | 0, i, h, hi => by
    rw [Nat.le_zero.1 hi]
    exact h
  | n + 1, i, h, hi => by
    rcases Nat.le_succ_iff.1 hi with hle | rfl
    · refine forUpTo_true_of_le ?_ hle
      rw [forUpTo] at h
      split at h
      next heq => rw [heq]
      next heq => cases h
    · exact h

theorem forUpTo_congr {body body' : Nat → σ → σ × Bool} {s : σ} : ∀ {n : Nat},
    (∀ i < n, (forUpTo body i s).2 = true → body' i (forUpTo body i s).1 = body i (forUpTo body i s).1) →
    forUpTo body' n s = forUpTo body n s
  | 0, _ => rfl
  | n + 1, h => by
    have ih := forUpTo_congr (fun i hi => h i (Nat.lt_succ_of_lt hi))
    have hn := h n (Nat.lt_succ_self n)
    rw [forUpTo, forUpTo, ih]
    cases hr : forUpTo body n s with | mk s' ok =>
    rw [hr] at hn
    cases ok with
    | true => exact hn rfl
    | false => rfl

/-- What the turns of a loop record, `r i s` being what turn `i` records in state `s`. -/
def alongUpTo {α : Type} (body : Nat → σ → σ × Bool) (r : Nat → σ → List α) : Nat → σ → List α
  | 0, _ => []
  | n + 1, s => alongUpTo body r n s ++ if (forUpTo body n s).2 then r n (forUpTo body n s).1 else []

theorem mem_alongUpTo {α : Type} {body : Nat → σ → σ × Bool} {r : Nat → σ → List α} {s : σ} {x : α} : ∀ {n : Nat},
    x ∈ alongUpTo body r n s ↔ ∃ i < n, (forUpTo body i s).2 = true ∧ x ∈ r i (forUpTo body i s).1
  | 0 => by
    simp only [alongUpTo, List.not_mem_nil, not_lt_zero, false_and, exists_false]
  | n + 1 => by
    rw [alongUpTo, List.mem_append, mem_alongUpTo, List.mem_ite_nil_right]
    constructor
    · rintro (⟨i, hi, hx⟩ | hx)
      · exact ⟨i, Nat.lt_succ_of_lt hi, hx⟩
      · exact ⟨n, Nat.lt_succ_self n, hx⟩
    · rintro ⟨i, hi, hx⟩
      rcases Nat.lt_succ_iff_lt_or_eq.1 hi with hlt | rfl
      · exact .inl ⟨i, hlt, hx⟩
      · exact .inr hx

end Noxis
