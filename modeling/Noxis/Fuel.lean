import Mathlib
/-!
# Fuel — computations with fuel that wait for answers

A computation gives a value, or waits for an answer its environment has not given yet, or has used up its fuel.  `Settles f r`
says that with enough fuel `f` gives `r`, whatever the fuel beyond that.  It composes along `bind`, along loops over a list and
along `while` loops whose test uses up a measure, so that a fuelled interpreter is compared with a meaning without fuel and no
count of fuel appears in the comparison.
-/
namespace Noxis

inductive Outcome (ε α : Type) where
  | ret (a : α)
  | waiting (e : ε)
  | timeout

variable {ε α β γ σ τ ω : Type}

namespace Outcome

def bind : Outcome ε α → (α → Outcome ε β) → Outcome ε β
  | .ret a, f => f a
  | .waiting e, _ => .waiting e
  | .timeout, _ => .timeout

def map (f : α → β) (x : Outcome ε α) : Outcome ε β := x.bind fun a => .ret (f a)

@[simp] theorem ret_bind (a : α) (f : α → Outcome ε β) : (ret a).bind f = f a := rfl
@[simp] theorem waiting_bind (e : ε) (f : α → Outcome ε β) : (waiting e).bind f = .waiting e := rfl
@[simp] theorem timeout_bind (f : α → Outcome ε β) : (timeout : Outcome ε α).bind f = .timeout := rfl
@[simp] theorem map_ret (f : α → β) (a : α) : (ret a : Outcome ε α).map f = .ret (f a) := rfl
@[simp] theorem map_waiting (f : α → β) (e : ε) : (waiting e : Outcome ε α).map f = .waiting e := rfl

@[simp] theorem map_timeout (f : α → β) : (timeout : Outcome ε α).map f = .timeout := rfl

theorem bind_assoc (x : Outcome ε α) (f : α → Outcome ε β) (g : β → Outcome ε γ) :
    (x.bind f).bind g = x.bind fun a => (f a).bind g := by
  cases x <;> rfl

theorem map_bind (x : Outcome ε α) (f : α → β) (g : β → Outcome ε γ) : (x.map f).bind g = x.bind fun a => g (f a) := by
  cases x <;> rfl

theorem bind_map (x : Outcome ε α) (f : α → Outcome ε β) (g : β → γ) : (x.bind f).map g = x.bind fun a => (f a).map g := by
  cases x <;> rfl

@[simp] theorem bind_ret (x : Outcome ε α) : x.bind .ret = x := by
  cases x <;> rfl

end Outcome

open Outcome

def whileLoop (test : σ → Outcome ε (Bool × σ)) (body : σ → Outcome ε σ) : Nat → σ → Outcome ε σ
  | 0, _ => .timeout
  | n + 1, s => (test s).bind fun x => if x.1 then (body x.2).bind (whileLoop test body n) else .ret x.2

def forLoop (body : ω → σ → Outcome ε σ) : List ω → σ → Outcome ε σ
  | [], s => .ret s
  | w :: ws, s => (body w s).bind (forLoop body ws)

theorem forLoop_map {ω' : Type} (body : ω → σ → Outcome ε σ) (f : ω' → ω) : ∀ (ws : List ω') (s : σ),
    forLoop body (ws.map f) s = forLoop (fun w => body (f w)) ws s
  | [], _ => rfl
  | w :: ws, s => by
    rw [List.map_cons, forLoop, forLoop]
    congr 1
    exact funext (forLoop_map body f ws)

theorem Outcome.bind_eq_ret {x : Outcome ε α} {f : α → Outcome ε β} {b : β} (h : x.bind f = .ret b) :
    ∃ a, x = .ret a ∧ f a = .ret b := by
  cases x with
  | ret a => exact ⟨a, rfl, h⟩
  | waiting e => cases h
  | timeout => cases h

theorem whileLoop_keeps {test : σ → Outcome ε (Bool × σ)} {body : σ → Outcome ε σ} {R : σ → σ → Prop} (hr : ∀ s, R s s)
    (ht : ∀ {a b c}, R a b → R b c → R a c) (htest : ∀ s x, test s = .ret x → R s x.2)
    (hbody : ∀ s s', body s = .ret s' → R s s') : ∀ (n : Nat) (s s' : σ), whileLoop test body n s = .ret s' → R s s'
  | 0, _, _, h => by cases h
  | n + 1, s, s', h => by
    rw [whileLoop] at h
    obtain ⟨x, hx, h⟩ := bind_eq_ret h
    split at h
    · obtain ⟨s1, hb, h⟩ := bind_eq_ret h
      exact ht (htest s x hx) (ht (hbody _ _ hb) (whileLoop_keeps hr ht htest hbody n s1 s' h))
    · cases h
      exact htest s x hx

theorem forLoop_keeps {body : ω → σ → Outcome ε σ} {R : σ → σ → Prop} (hr : ∀ s, R s s)
    (ht : ∀ {a b c}, R a b → R b c → R a c) (hbody : ∀ w s s', body w s = .ret s' → R s s') :
    ∀ (ws : List ω) (s s' : σ), forLoop body ws s = .ret s' → R s s'
  | [], s, s', h => by cases h; exact hr s
  | w :: ws, s, s', h => by
    rw [forLoop] at h
    obtain ⟨s1, hb, h⟩ := bind_eq_ret h
    exact ht (hbody w s s1 hb) (forLoop_keeps hr ht hbody ws s1 s' h)

theorem Outcome.bind_ne_timeout {x : Outcome ε α} {f : α → Outcome ε β} (hx : x ≠ .timeout)
    (hf : ∀ a, x = .ret a → f a ≠ .timeout) : x.bind f ≠ .timeout := by
  cases x with
  | ret a => exact hf a rfl
  | waiting e => exact fun h => by cases h
  | timeout => exact absurd rfl hx

theorem whileLoop_ne_timeout {test : σ → Outcome ε (Bool × σ)} {body : σ → Outcome ε σ} (m : σ → Nat)
    (htest : ∀ s, test s ≠ .timeout) (hbody : ∀ s, body s ≠ .timeout) (hm : ∀ s x, test s = .ret x → m x.2 < m s)
    (hmb : ∀ s s', body s = .ret s' → m s' ≤ m s) : ∀ (n : Nat) (s : σ), m s < n → whileLoop test body n s ≠ .timeout
  | 0, s, h => by omega
  | n + 1, s, h => by
    rw [whileLoop]
    refine bind_ne_timeout (htest s) fun x hx => ?_
    have h1 := hm s x hx
    split
    · refine bind_ne_timeout (hbody _) fun s' hs' => ?_
      have h2 := hmb _ _ hs'
      exact whileLoop_ne_timeout m htest hbody hm hmb n s' (by omega)
    · exact fun hx => by cases hx

theorem forLoop_ne_timeout {body : ω → σ → Outcome ε σ} (hbody : ∀ w s, body w s ≠ .timeout) :
    ∀ (ws : List ω) (s : σ), forLoop body ws s ≠ .timeout
  | [], _ => fun h => by cases h
  | w :: ws, s => bind_ne_timeout (hbody w s) fun s' _ => forLoop_ne_timeout hbody ws s'

def Settles (f : Nat → Outcome ε α) (r : Outcome ε α) : Prop := ∃ N, ∀ n, N ≤ n → f n = r

theorem Settles.const (r : Outcome ε α) : Settles (fun _ => r) r := ⟨0, fun _ _ => rfl⟩

theorem Settles.unique {f : Nat → Outcome ε α} {r r' : Outcome ε α} : Settles f r → Settles f r' → r = r'
  | ⟨N, h⟩, ⟨N', h'⟩ => (h (max N N') (le_max_left ..)).symm.trans (h' (max N N') (le_max_right ..))

theorem Settles.congr {f g : Nat → Outcome ε α} {r : Outcome ε α} (hf : Settles f r) (h : ∀ n, g n = f n) : Settles g r :=
  let ⟨N, hN⟩ := hf
  ⟨N, fun n hn => (h n).trans (hN n hn)⟩

theorem Settles.succ {f g : Nat → Outcome ε α} {r : Outcome ε α} (hf : Settles f r) (h : ∀ n, g (n + 1) = f n) :
    Settles g r := by
  obtain ⟨N, hN⟩ := hf
  refine ⟨N + 1, fun n hn => ?_⟩
  obtain ⟨m, rfl⟩ : ∃ m, n = m + 1 := ⟨n - 1, by omega⟩
  rw [h m, hN m (by omega)]

theorem Settles.bind {f : Nat → Outcome ε β} {r : Outcome ε α} {e : α → β} {g : Nat → β → Outcome ε γ}
    {k : α → Outcome ε γ} (hf : Settles f (r.map e)) (hg : ∀ a, r = .ret a → Settles (fun n => g n (e a)) (k a)) :
    Settles (fun n => (f n).bind (g n)) (r.bind k) := by
  obtain ⟨N, hN⟩ := hf
  cases r with
  | ret a =>
    obtain ⟨M, hM⟩ := hg a rfl
    refine ⟨max N M, fun n hn => ?_⟩
    simp only [hN n (le_trans (le_max_left ..) hn), map_ret, ret_bind, hM n (le_trans (le_max_right ..) hn)]
  | waiting e => exact ⟨N, fun n hn => by simp only [hN n hn, map_waiting, waiting_bind]⟩
  | timeout => exact ⟨N, fun n hn => by simp only [hN n hn, map_timeout, timeout_bind]⟩

/-! ## Loops

The computation works on states `e t`, its meaning on the states `t` themselves. -/

section Loops

variable {e : τ → σ}

theorem Settles.forLoop {body : Nat → ω → σ → Outcome ε σ} {meaning : ω → τ → Outcome ε τ}
    (hbody : ∀ w t, Settles (fun n => body n w (e t)) ((meaning w t).map e)) :
    ∀ (ws : List ω) (t : τ), Settles (fun n => Noxis.forLoop (body n) ws (e t)) ((Noxis.forLoop meaning ws t).map e)
  | [], t => Settles.const _
  | w :: ws, t => by
    rw [Noxis.forLoop, bind_map]
    exact (hbody w t).bind (fun t' _ => Settles.forLoop hbody ws t')

variable {test : σ → Outcome ε (Bool × σ)} {body : Nat → σ → Outcome ε σ}
    {testM : τ → Outcome ε (Bool × τ)} {bodyM : τ → Outcome ε τ} (m : τ → Nat)
    (htest : ∀ t, test (e t) = (testM t).map fun x => (x.1, e x.2))
    (hbody : ∀ t, Settles (fun n => body n (e t)) ((bodyM t).map e))
    (hm : ∀ t x, testM t = .ret x → m x.2 < m t) (hmb : ∀ t t', bodyM t = .ret t' → m t' ≤ m t)
include htest hbody hm hmb

theorem whileLoop_enough :
    ∀ (k : Nat) (t : τ), m t < k →
      ∃ N, ∀ n j, N ≤ n → k ≤ j → whileLoop test (body n) j (e t) = (whileLoop testM bodyM k t).map e
  | 0, t, h => by omega
  | k + 1, t, h => by
    have hj : ∀ n j, k + 1 ≤ j → whileLoop test (body n) j (e t) = (testM t).bind fun x =>
        if x.1 then (body n (e x.2)).bind (whileLoop test (body n) (j - 1)) else .ret (e x.2) := fun n j hj => by
      obtain ⟨i, rfl⟩ : ∃ i, j = i + 1 := ⟨j - 1, by omega⟩
      rw [whileLoop, htest, map_bind]
      rfl
    rw [whileLoop, bind_map]
    cases ht : testM t with
    | waiting w => exact ⟨0, fun n j _ hk => by rw [hj n j hk, ht]; rfl⟩
    | timeout => exact ⟨0, fun n j _ hk => by rw [hj n j hk, ht]; rfl⟩
    | ret x =>
      have hx := hm t x ht
      cases hb : x.1 with
      | false => exact ⟨0, fun n j _ hk => by rw [hj n j hk, ht, ret_bind, ret_bind, hb]; rfl⟩
      | true =>
        obtain ⟨N, hN⟩ := hbody x.2
        cases hr : bodyM x.2 with
        | waiting w =>
          refine ⟨N, fun n j hn hk => ?_⟩
          simp only [hj n j hk, ht, ret_bind, hb, if_true, hN n hn, hr, map_waiting, waiting_bind]
        | timeout =>
          refine ⟨N, fun n j hn hk => ?_⟩
          simp only [hj n j hk, ht, ret_bind, hb, if_true, hN n hn, hr, map_timeout, timeout_bind]
        | ret t' =>
          have ht' := hmb x.2 t' hr
          obtain ⟨M, hM⟩ := whileLoop_enough k t' (by omega)
          refine ⟨max N M, fun n j hn hk => ?_⟩
          simp only [hj n j hk, ht, ret_bind, hb, if_true, hN n (le_trans (le_max_left ..) hn), hr, map_ret]
          exact hM n (j - 1) (le_trans (le_max_right ..) hn) (by omega)

theorem Settles.whileLoop (t : τ) :
    Settles (fun n => Noxis.whileLoop test (body n) n (e t)) ((Noxis.whileLoop testM bodyM (m t + 1) t).map e) := by
  obtain ⟨N, hN⟩ := whileLoop_enough m htest hbody hm hmb (m t + 1) t (Nat.lt_succ_self _)
  exact ⟨max N (m t + 1), fun n hn => hN n n (le_trans (le_max_left ..) hn) (le_trans (le_max_right ..) hn)⟩

end Loops

end Noxis
