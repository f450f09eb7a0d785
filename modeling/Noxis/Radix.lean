import Mathlib
/-!
# Radix — following index paths through a heap of tables

A heap of tables is a partial function `h` from a table and an index to the table (or leaf) stored there.  `follow` walks
a path of indices from a root.  `Unshared` says that, among the paths `D` admits, no table is reached along two of them.
Under it a store to one entry changes only the paths through that entry (`follow_of_store`), and linking a fresh empty
table reaches nothing new but the table itself (`follow_of_link`, `unshared_of_link`).
-/
namespace Noxis

open List Option
namespace Radix

variable {N I : Type}

def follow (h : N → I → Option N) : N → List I → Option N
  | n, [] => some n
  | n, i :: p => (h n i).bind (fun c => follow h c p)

theorem follow_append (h : N → I → Option N) : ∀ (p q : List I) (n : N),
    follow h n (p ++ q) = (follow h n p).bind (fun t => follow h t q)
  | [], q, n => rfl
  | i :: p, q, n => by
    rw [cons_append, follow, follow]
    cases h n i with
    | none => rfl
    | some c => exact follow_append h p q c

theorem follow_snoc (h : N → I → Option N) (p : List I) (i : I) (n : N) :
    follow h n (p ++ [i]) = (follow h n p).bind (fun t => h t i) := by
  rw [follow_append]
  congr 1
  funext t
  simp only [follow]
  cases h t i <;> rfl

/-- **A path reads only the entries along it.** -/
theorem follow_congr (h h' : N → I → Option N) : ∀ (p : List I) (r : N),
    (∀ q i rest t, p = q ++ i :: rest → follow h r q = some t → h' t i = h t i) → follow h' r p = follow h r p
  | [], _, _ => rfl
  | i :: p, r, H => by
    rw [follow, follow, H [] i p r rfl rfl]
    cases hc : h r i with
    | none => rfl
    | some c =>
      simp only [bind_some]
      refine follow_congr h h' p c (fun q j rest t hp ht => H (i :: q) j rest t (by rw [hp]; rfl) ?_)
      rw [follow, hc, bind_some, ht]

def Unshared (h : N → I → Option N) (R : List N) (D : List I → Prop) : Prop :=
  ∀ r r' p p' t, r ∈ R → r' ∈ R → D p → D p' → follow h r p = some t → follow h r' p' = some t → r = r' ∧ p = p'

def Closed (D : List I → Prop) : Prop := ∀ p i rest, D (p ++ i :: rest) → D p

def Inner (D : List I → Prop) (q : List I) : Prop := ∀ p i rest, q = p ++ i :: rest → D p

variable {q p : List I}

theorem Closed.inner {D : List I → Prop} (hD : Closed D) (h : D q) : Inner D q :=
  fun p i rest hq => hD p i rest (hq ▸ h)

variable {h h' : N → I → Option N} {R : List N} {D : List I → Prop} {r t r' c x : N} {i : I}

section

variable (hU : Unshared h R D) (hr : r ∈ R) (hp : D p) (ht : follow h r p = some t)
include hU hr hp ht

/-- **A store to entry `i` of the table at `(r, p)` changes only the paths through that entry.** -/
theorem follow_of_store (hne : ∀ t' i', ¬ (t' = t ∧ i' = i) → h' t' i' = h t' i') (hr' : r' ∈ R) (hq : Inner D q)
    (hout : ¬ (r' = r ∧ p ++ [i] <+: q)) : follow h' r' q = follow h r' q := by
  apply follow_congr
  intro q1 j rest t1 hq1 ht1
  apply hne
  rintro ⟨rfl, rfl⟩
  obtain ⟨rfl, rfl⟩ := hU r r' p q1 t1 hr hr' hp (hq q1 j rest hq1) ht ht1
  exact hout ⟨rfl, rest, by rw [hq1]; simp⟩

/-- **Linking an empty table `c` that no admitted path reached leaves the other paths alone.** -/
theorem follow_of_link (hfresh : ∀ r' ∈ R, ∀ q, D q → follow h r' q ≠ some c) (hne : ∀ t' i', t' ≠ c → ¬ (t' = t ∧ i' = i) →
    h' t' i' = h t' i') (hr' : r' ∈ R) (hq : Inner D q) (hout : ¬ (r' = r ∧ p ++ [i] <+: q)) :
    follow h' r' q = follow h r' q := by
  apply follow_congr
  intro q1 j rest t1 hq1 ht1
  have hD1 := hq q1 j rest hq1
  apply hne
  · rintro rfl; exact hfresh r' hr' q1 hD1 ht1
  · rintro ⟨rfl, rfl⟩
    obtain ⟨rfl, rfl⟩ := hU r r' p q1 t1 hr hr' hp hD1 ht ht1
    exact hout ⟨rfl, rest, by rw [hq1]; simp⟩

end

theorem follow_through_link (ht : follow h' r p = some t) (hc : h' t i = some c)
    (hempty : ∀ j, h' c j = none) (rest : List I) : follow h' r (p ++ i :: rest) = if rest = [] then some c else none := by
  rw [follow_append, ht, bind_some, follow, hc, bind_some]
  cases rest with
  | nil => rfl
  | cons j rest => rw [follow, hempty j]; rfl

section Link

variable (hU : Unshared h R D) (hD : Closed D) (hr : r ∈ R)
    (hpi : D (p ++ [i])) (ht : follow h r p = some t) (hfresh : ∀ r' ∈ R, ∀ q, D q → follow h r' q ≠ some c)
    (hne : ∀ t' i', t' ≠ c → ¬ (t' = t ∧ i' = i) → h' t' i' = h t' i') (hc : h' t i = some c)
    (hempty : ∀ j, h' c j = none)
include hU hD hr hpi ht hfresh hne hc hempty

/-- **What linking an empty table reaches**: the table itself, at its place, and what was reached before. -/
theorem follow_link_cases (hr' : r' ∈ R) (hq : D q) (hx : follow h' r' q = some x) :
    (r' = r ∧ q = p ++ [i] ∧ x = c) ∨ follow h r' q = some x := by
  have hp : D p := hD p i [] hpi
  by_cases hout : r' = r ∧ p ++ [i] <+: q
  · obtain ⟨rfl, rest, rfl⟩ := hout
    have ht' : follow h' r' p = some t := by
      rw [follow_of_link hU hr hp ht hfresh hne hr (hD.inner hp) (fun hc => by
        have := hc.2.length_le; simp at this), ht]
    rw [append_assoc, singleton_append, follow_through_link ht' hc hempty] at hx
    by_cases hrest : rest = []
    · subst hrest
      simp only [if_true, some.injEq] at hx
      exact .inl ⟨rfl, by simp, hx.symm⟩
    · rw [if_neg hrest] at hx; cases hx
  · rw [follow_of_link hU hr hp ht hfresh hne hr' (hD.inner hq) hout] at hx
    exact .inr hx

theorem unshared_of_link : Unshared h' R D := by
  intro r1 r2 p1 p2 x hr1 hr2 hp1 hp2 h1 h2
  rcases follow_link_cases hU hD hr hpi ht hfresh hne hc hempty hr1 hp1 h1 with ⟨rfl, rfl, rfl⟩ | h1
  · rcases follow_link_cases hU hD hr hpi ht hfresh hne hc hempty hr2 hp2 h2 with ⟨rfl, rfl, -⟩ | h2
    · exact ⟨rfl, rfl⟩
    · exact absurd h2 (hfresh r2 hr2 p2 hp2)
  · rcases follow_link_cases hU hD hr hpi ht hfresh hne hc hempty hr2 hp2 h2 with ⟨rfl, rfl, rfl⟩ | h2
    · exact absurd h1 (hfresh r1 hr1 p1 hp1)
    · exact hU r1 r2 p1 p2 x hr1 hr2 hp1 hp2 h1 h2

end Link

theorem follow_link_mono (hU : Unshared h R D) (hr : r ∈ R) (hp : D p) (ht : follow h r p = some t) (hnone : h t i = none)
    (hfresh : ∀ r' ∈ R, ∀ q, D q → follow h r' q ≠ some c)
    (hne : ∀ t' i', t' ≠ c → ¬ (t' = t ∧ i' = i) → h' t' i' = h t' i') (hr' : r' ∈ R)
    (hq : Inner D q) (hx : follow h r' q = some x) : follow h' r' q = some x := by
  rw [follow_of_link hU hr hp ht hfresh hne hr' hq, hx]
  rintro ⟨rfl, rest, rfl⟩
  rw [append_assoc, singleton_append, follow_append, ht, bind_some, follow, hnone] at hx
  cases hx

end Radix
end Noxis
