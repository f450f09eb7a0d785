import Mathlib
/-!
# Run — runs of a machine, invariants and refinement

A machine is a step function that answers an output.  `run_inv` is the invariant rule over a whole run, and `run_refines`
the refinement rule: when every step of the one machine is the step of the other one on the abstracted state, with the same
output, so is every run.  Both ask for the step's side condition in the states the run goes through only.
-/
namespace Noxis

open List

variable {σ τ ι ο : Type}

def run (step : σ → ι → σ × ο) : σ → List ι → σ × List ο
  | s, [] => (s, [])
  | s, i :: is => ((run step (step s i).1 is).1, (step s i).2 :: (run step (step s i).1 is).2)

theorem run_cons (step : σ → ι → σ × ο) (s : σ) (i : ι) (is : List ι) :
    run step s (i :: is) = ((run step (step s i).1 is).1, (step s i).2 :: (run step (step s i).1 is).2) := rfl

theorem run_append (step : σ → ι → σ × ο) : ∀ (is js : List ι) (s : σ),
    (run step s (is ++ js)).1 = (run step (run step s is).1 js).1
  | [], _, _ => rfl
  | i :: is, js, s => run_append step is js (step s i).1

theorem splits_nil {Q : List ι → ι → Prop} : ∀ pre i post, ([] : List ι) = pre ++ i :: post → Q pre i :=
  fun pre i post hp => absurd hp (by simp)

/-- A condition on every input and those before it, input by input. -/
theorem splits_cons {Q : List ι → ι → Prop} {i : ι} {is : List ι} : (∀ pre j post, i :: is = pre ++ j :: post → Q pre j) ↔
    Q [] i ∧ ∀ pre j post, is = pre ++ j :: post → Q (i :: pre) j := by
  refine ⟨fun h => ⟨h [] i is rfl, fun pre j post hp => h (i :: pre) j post (by rw [hp]; rfl)⟩, fun h pre j post hp => ?_⟩
  cases pre with
  | nil =>
    obtain ⟨rfl, -⟩ := cons.inj hp
    exact h.1
  | cons x pre =>
    obtain ⟨rfl, hp'⟩ := cons.inj hp
    exact h.2 pre j post hp'

/-- `P` holds in every state the run goes through, the first and the last included. -/
def Always (step : σ → ι → σ × ο) (P : σ → Prop) (s : σ) (is : List ι) : Prop :=
  ∀ pre, pre <+: is → P (run step s pre).1

variable {step : σ → ι → σ × ο} {P : σ → Prop} {s : σ} {is : List ι}

theorem Always.head (h : Always step P s is) : P s :=
  h [] nil_prefix

variable {i : ι}

theorem Always.tail (h : Always step P s (i :: is)) : Always step P (step s i).1 is :=
  fun pre hpre => h (i :: pre) ((prefix_cons_inj i).2 hpre)

theorem Always.nil (h : P s) : Always step P s [] := by
  intro pre hpre
  rw [prefix_nil.1 hpre]
  exact h

theorem Always.cons (h : P s) (ht : Always step P (step s i).1 is) : Always step P s (i :: is) := by
  intro pre hpre
  cases pre with
  | nil => exact h
  | cons j pre =>
    obtain ⟨rfl, hp⟩ := cons_prefix_cons.1 hpre
    exact ht pre hp

theorem Always.append {step : σ → ι → σ × ο} {P : σ → Prop} : ∀ {is js : List ι} {s : σ}, Always step P s is →
    Always step P (run step s is).1 js → Always step P s (is ++ js)
  | [], _, _, _, h2 => h2
  | _ :: _, _, _, h1, h2 => Always.cons h1.head (Always.append h1.tail h2)

/-- **The invariant rule.**  `C s i` is a condition on a step, asked for at every step of the run. -/
theorem run_inv {step : σ → ι → σ × ο} {P : σ → Prop} {C : σ → ι → Prop}
    (hstep : ∀ s i, P s → C s i → P (step s i).1) : ∀ (is : List ι) (s : σ), P s →
    (∀ pre i post, is = pre ++ i :: post → C (run step s pre).1 i) → P (run step s is).1
  | [], _, h, _ => h
  | i :: is, s, h, hC => run_inv hstep is (step s i).1 (hstep s i h (splits_cons.1 hC).1) (splits_cons.1 hC).2

/-- **A property of every step that is equivalent to a condition on the inputs.**  `I` is what the inputs so far, all of them
within the condition, have made of the state. -/
theorem run_iff {I : List ι → σ → Prop} {P : σ → ι → Prop} {C : List ι → ι → Prop}
    (h0 : I [] s) (hiff : ∀ pre i post s, is = pre ++ i :: post → I pre s → (P s i ↔ C pre i))
    (hstep : ∀ pre i post s, is = pre ++ i :: post → I pre s → C pre i → I (pre ++ [i]) (step s i).1) :
    (∀ pre i post, is = pre ++ i :: post → P (run step s pre).1 i) ↔ ∀ pre i post, is = pre ++ i :: post → C pre i := by
  have hinv : ∀ pre post, is = pre ++ post → (∀ p i q, is = p ++ i :: q → p.length < pre.length → C p i) →
      I pre (run step s pre).1 := by
    intro pre
    induction pre using reverseRecOn with
    | nil => exact fun _ _ _ => h0
    | append_singleton pre i ih =>
      intro post hp hC
      rw [append_assoc] at hp
      rw [run_append]
      refine hstep pre i post _ hp (ih ([i] ++ post) hp (fun p j q hq hlt => hC p j q hq ?_)) (hC pre i post hp ?_)
      · rw [length_append]; omega
      · rw [length_append, length_singleton]; omega
  refine ⟨fun hP => ?_, fun hC pre i post hp => ?_⟩
  · -- the condition, one input after the other
    have hall : ∀ n pre i post, pre.length = n → is = pre ++ i :: post → C pre i := by
      intro n
      induction n using Nat.strong_induction_on with
      | _ n ih =>
        intro pre i post hn hp
        have hI := hinv pre (i :: post) hp (fun p j q hq hlt => ih p.length (by omega) p j q rfl hq)
        exact (hiff pre i post _ hp hI).1 (hP pre i post hp)
    exact fun pre i post hp => hall pre.length pre i post rfl hp
  · exact (hiff pre i post _ hp (hinv pre (i :: post) hp (fun p j q hq _ => hC p j q hq))).2 (hC pre i post hp)

/-- **A property of every state that is equivalent to a condition on the steps.**  `I` is the invariant that the condition
keeps; a step out of a state with the invariant that misses the condition breaks the property. -/
theorem always_iff {step : σ → ι → σ × ο} {I P : σ → Prop} {C : σ → ι → Prop} (hI : ∀ s, I s → P s)
    (hbreak : ∀ s i, I s → P (step s i).1 → C s i) (hstep : ∀ s i, I s → C s i → I (step s i).1) :
    ∀ (is : List ι) (s : σ), I s → (Always step P s is ↔ ∀ pre i post, is = pre ++ i :: post → C (run step s pre).1 i)
  | [], s, h => ⟨fun _ => splits_nil, fun _ => Always.nil (hI s h)⟩
  | i :: is, s, h => by
    rw [splits_cons]
    constructor
    · intro hall
      have hC := hbreak s i h hall.tail.head
      exact ⟨hC, (always_iff hI hbreak hstep is (step s i).1 (hstep s i h hC)).1 hall.tail⟩
    · rintro ⟨hC, hrest⟩
      exact Always.cons (hI s h) ((always_iff hI hbreak hstep is (step s i).1 (hstep s i h hC)).2 hrest)

/-- **The refinement rule.**  `Ok` is a condition on states, asked for in every state of the run. -/
theorem run_refines {cstep : σ → ι → σ × ο} {astep : τ → ι → τ × ο} {abs : σ → τ} {P Ok : σ → Prop}
    (hstep : ∀ s i, P s → Ok (cstep s i).1 → P (cstep s i).1 ∧ astep (abs s) i = (abs (cstep s i).1, (cstep s i).2)) :
    ∀ (is : List ι) (s : σ), P s → Always cstep Ok s is →
      P (run cstep s is).1 ∧ run astep (abs s) is = (abs (run cstep s is).1, (run cstep s is).2)
  | [], _, h, _ => ⟨h, rfl⟩
  | i :: is, s, h, hok => by
    obtain ⟨h1, h2⟩ := hstep s i h hok.tail.head
    obtain ⟨h3, h4⟩ := run_refines hstep is (cstep s i).1 h1 hok.tail
    exact ⟨h3, by rw [run_cons, run_cons, h2, h4]⟩

end Noxis
