import Mathlib
/-!
# Linked — intrusive linked lists

Nodes carry the links themselves, as functions from nodes to the node that follows or nothing.  `Chain next p l` says that
the singly linked list from the pointer `p` is `l`; `Doubly next prev u l v` that the nodes from `u` through `l` to `v`
point at each other.  The lemmas say what the loops over such a list find (`scan_eq`, `findLoc_eq`, `scanUntil_eq`) and what
relinking does to it (`Chain.push`, `Chain.snoc`, `Chain.unlink`, `Doubly.remove`, `Doubly.insert`).
-/
namespace Noxis

open List Option Function
namespace Linked

variable {N : Type} [DecidableEq N]

/-! ## Singly linked -/

def Chain (next : N → Option N) : Option N → List N → Prop
  | p, [] => p = none
  | p, a :: l => p = some a ∧ Chain next (next a) l

omit [DecidableEq N] in
theorem Chain.congr {next next' : N → Option N} : ∀ {l : List N} {p : Option N}, (∀ a ∈ l, next' a = next a) →
    Chain next p l → Chain next' p l
  | [], _, _, h => h
  | a :: l, p, hn, ⟨h1, h2⟩ =>
    ⟨h1, Chain.congr (fun b hb => hn b (mem_cons_of_mem _ hb)) (by rw [hn a mem_cons_self]; exact h2)⟩

omit [DecidableEq N] in
theorem Chain.unique {next : N → Option N} : ∀ {l l' : List N} {p : Option N}, Chain next p l → Chain next p l' → l = l'
  | [], [], _, _, _ => rfl
  | [], b :: l', p, h, h' => by rw [show p = none from h] at h'; cases h'.1
  | a :: l, [], p, h, h' => by rw [show p = none from h'] at h; cases h.1
  | a :: l, b :: l', p, h, h' => by
    obtain rfl : a = b := some.inj (h.1.symm.trans h'.1)
    rw [Chain.unique h.2 h'.2]

theorem Chain.push {next : N → Option N} {p : Option N} {l : List N} {a : N} (h : Chain next p l) (ha : a ∉ l) :
    Chain (update next a p) (some a) (a :: l) := by
  refine ⟨rfl, ?_⟩
  rw [update_self]
  exact h.congr (fun b hb => update_of_ne (fun (hx : b = a) => ha (hx ▸ hb)) _ _)

omit [DecidableEq N] in
theorem Chain.reaches {next next' : N → Option N} {a : N} {l2 : List N} : ∀ {l1 l : List N} {p : Option N},
    Chain next p (l1 ++ a :: l2) → (∀ b ∈ l1, next' b = next b) → Chain next' p l → a ∈ l
  | [], [], p, h, _, h' => by rw [show p = none from h'] at h; cases h.1
  | [], b :: l, p, h, _, h' => by
    rw [some.inj (h.1.symm.trans h'.1)]
    exact mem_cons_self
  | c :: l1, [], p, h, _, h' => by rw [show p = none from h'] at h; cases h.1
  | c :: l1, b :: l, p, h, hn, h' => by
    obtain rfl : c = b := some.inj (h.1.symm.trans h'.1)
    have htail := h'.2
    rw [hn c mem_cons_self] at htail
    exact mem_cons_of_mem _ (Chain.reaches h.2 (fun b hb => hn b (mem_cons_of_mem _ hb)) htail)

omit [DecidableEq N] in
theorem Chain.rest {next : N → Option N} {l2 : List N} : ∀ {l1 : List N} {p : Option N}, Chain next p (l1 ++ l2) →
    Chain next (l1.getLast?.elim p next) l2
  | [], _, h => h
  | [_], _, h => h.2
  | a :: b :: l1, p, h => by
    have ih : Chain next ((b :: l1).getLast?.elim (next a) next) l2 := Chain.rest h.2
    rw [getLast?_cons_cons]
    rw [getLast?_cons] at ih ⊢
    exact ih

theorem Chain.snoc {next : N → Option N} {a t : N} : ∀ {l : List N} {p : Option N}, Chain next p (l ++ [t]) →
    (l ++ [t]).Nodup → a ∉ l ++ [t] → Chain (update (update next a none) t (some a)) p (l ++ [t] ++ [a])
  | [], p, h, _, ha => by
    have hat : a ≠ t := fun hx => ha (by simp [hx])
    refine ⟨h.1, ?_, ?_⟩
    · rw [update_self]
    · rw [update_of_ne hat, update_self]
      rfl
  | b :: l, p, h, hnd, ha => by
    have hbt : b ≠ t := fun hx => (nodup_cons.1 hnd).1 (by simp [hx])
    have hba : b ≠ a := fun hx => ha (by simp [hx])
    refine ⟨h.1, ?_⟩
    rw [update_of_ne hbt, update_of_ne hba]
    exact Chain.snoc h.2 (nodup_cons.1 hnd).2 (fun hx => ha (mem_cons_of_mem _ hx))

/-- `while (p) { if (P(p)) return p; p = p->next; }`, `none` when the loop does not end in `fuel` rounds. -/
def scan (next : N → Option N) (P : N → Bool) : Nat → Option N → Option (Option N)
  | _, none => some none
  | 0, some _ => none
  | fuel + 1, some a => if P a then some (some a) else scan next P fuel (next a)

omit [DecidableEq N] in
theorem scan_eq {next : N → Option N} (P : N → Bool) : ∀ {l : List N} {p : Option N} {fuel : Nat}, Chain next p l →
    l.length ≤ fuel → scan next P fuel p = some (l.find? P)
  | [], p, fuel, h, _ => by
    rw [show p = none from h]
    cases fuel <;> rfl
  | a :: l, p, 0, _, hf => by cases hf
  | a :: l, p, fuel + 1, h, hf => by
    rw [h.1, scan, find?_cons]
    cases P a with
    | true => rfl
    | false => exact scan_eq P h.2 (Nat.le_of_succ_le_succ hf)

/-- `while (*q) { if (*q == a) return q; q = &(*q)->next; }` from the link `loc`, which holds `p`: the link that holds `a`,
`none` standing for the list head and `some b` for the link of `b`. -/
def findLoc (next : N → Option N) (a : N) : Nat → Option N → Option N → Option (Option (Option N))
  | _, _, none => some none
  | 0, _, some _ => none
  | fuel + 1, loc, some b => if b = a then some (some loc) else findLoc next a fuel (some b) (next b)

theorem findLoc_eq {next : N → Option N} {a : N} {l2 : List N} : ∀ {l1 : List N} {loc p : Option N} {fuel : Nat},
    Chain next p (l1 ++ a :: l2) → a ∉ l1 → l1.length + 1 ≤ fuel → findLoc next a fuel loc p = some (some (l1.getLast?.or loc))
  | [], loc, p, 0, _, _, hf => by cases hf
  | [], loc, p, fuel + 1, h, _, _ => by
    rw [nil_append] at h
    rw [h.1, findLoc, if_pos rfl]
    rfl
  | b :: l1, loc, p, 0, _, _, hf => by cases hf
  | b :: l1, loc, p, fuel + 1, h, ha, hf => by
    rw [mem_cons, not_or] at ha
    rw [cons_append] at h
    rw [h.1, findLoc, if_neg (Ne.symm ha.1), findLoc_eq h.2 ha.2 (Nat.le_of_succ_le_succ hf)]
    cases l1 with
    | nil => rfl
    | cons c l1 => rw [getLast?_cons_cons]; cases hl : (c :: l1).getLast? with
      | none => simp at hl
      | some x => rfl

/-- The head and the links after the link `loc` has been set to `p`. -/
def setLoc (next : N → Option N) (head : Option N) (loc p : Option N) : Option N × (N → Option N) :=
  match loc with
  | none => (p, next)
  | some b => (head, update next b p)

/-- **Unlinking** the node after the prefix `l1`. -/
theorem Chain.unlink {next : N → Option N} {a : N} {l2 : List N} : ∀ {l1 : List N} {p : Option N},
    Chain next p (l1 ++ a :: l2) → (l1 ++ a :: l2).Nodup →
    Chain (setLoc next p l1.getLast? (next a)).2 (setLoc next p l1.getLast? (next a)).1 (l1 ++ l2)
  | [], p, h, _ => by
    rw [nil_append] at h
    exact h.2
  | [b], p, h, hnd => by
    refine ⟨h.1, ?_⟩
    simp only [getLast?_singleton, setLoc, update_self]
    have hb : b ∉ l2 := fun hb => by
      simp only [cons_append, nil_append, nodup_cons, mem_cons, not_or] at hnd
      exact hnd.1.2 hb
    exact Chain.congr (fun c hc => update_of_ne (fun (hx : c = b) => hb (hx ▸ hc)) _ _) h.2.2
  | b :: c :: l1, p, h, hnd => by
    have hnd' := (nodup_cons.1 hnd).2
    have ih : Chain (setLoc next (next b) (c :: l1).getLast? (next a)).2 (setLoc next (next b) (c :: l1).getLast? (next a)).1
        (c :: l1 ++ l2) := Chain.unlink h.2 hnd'
    have hb : b ∉ c :: l1 ++ a :: l2 := (nodup_cons.1 hnd).1
    rw [getLast?_cons_cons]
    obtain ⟨x, hx⟩ : ∃ x, (c :: l1).getLast? = some x := ⟨_, getLast?_eq_some_getLast (by simp)⟩
    have hbx : b ≠ x := fun hbx => hb (mem_append_left _ (hbx ▸ mem_of_getLast? hx))
    rw [hx] at ih ⊢
    refine ⟨h.1, ?_⟩
    simp only [setLoc] at ih ⊢
    rw [update_of_ne hbx]
    exact ih

/-! ## Doubly linked -/

section Doubly

variable {next prev : N → Option N}

/-- The nodes from `u` through `l` to `v`, each pointing at its neighbours. -/
def Doubly (next prev : N → Option N) : N → List N → N → Prop
  | u, [], v => next u = some v ∧ prev v = some u
  | u, a :: l, v => (next u = some a ∧ prev a = some u) ∧ Doubly next prev a l v

omit [DecidableEq N] in
theorem Doubly.append {a v : N} {l2 : List N} : ∀ {l1 : List N} {u : N},
    Doubly next prev u (l1 ++ a :: l2) v ↔ Doubly next prev u l1 a ∧ Doubly next prev a l2 v
  | [], u => Iff.rfl
  | b :: l1, u => by
    rw [cons_append, Doubly, Doubly, Doubly.append]
    exact and_assoc.symm

omit [DecidableEq N] in
theorem Doubly.congr {next' prev' : N → Option N} {v : N} : ∀ {l : List N} {u : N}, (∀ a ∈ u :: l, next' a = next a) →
    (∀ a ∈ l ++ [v], prev' a = prev a) → Doubly next prev u l v → Doubly next' prev' u l v
  | [], u, hn, hp, h => ⟨by rw [hn u mem_cons_self]; exact h.1, by rw [hp v (by simp)]; exact h.2⟩
  | a :: l, u, hn, hp, h =>
    ⟨⟨by rw [hn u mem_cons_self]; exact h.1.1, by rw [hp a (by simp)]; exact h.1.2⟩,
      Doubly.congr (fun b hb => hn b (mem_cons_of_mem _ hb)) (fun b hb => hp b (mem_cons_of_mem _ hb)) h.2⟩

theorem Doubly.redirect {a y : N} : ∀ {l : List N} {u : N}, Doubly next prev u l a → (u :: l).Nodup → y ∉ l →
    ∃ x ∈ u :: l, prev a = some x ∧ Doubly (update next x (some y)) (update prev y (some x)) u l y
  | [], u, h, _, _ => ⟨u, mem_cons_self, h.2, by rw [Doubly, update_self, update_self]; exact ⟨rfl, rfl⟩⟩
  | b :: l, u, h, hnd, hy => by
    rw [mem_cons, not_or] at hy
    have hu := (nodup_cons.1 hnd).1
    obtain ⟨x, hx, hpx, hd⟩ := Doubly.redirect h.2 (nodup_cons.1 hnd).2 hy.2
    have hux : u ≠ x := fun hux => hu (hux ▸ hx)
    refine ⟨x, mem_cons_of_mem _ hx, hpx, ⟨?_, ?_⟩, hd⟩
    · rw [update_of_ne hux]; exact h.1.1
    · rw [update_of_ne (Ne.symm hy.1)]; exact h.1.2

/-- **Taking a node out**: its two neighbours are linked with each other, its own links are cleared. -/
theorem Doubly.remove {u a v : N} {l1 l2 : List N} (h : Doubly next prev u (l1 ++ a :: l2) v)
    (hnd : (u :: (l1 ++ a :: l2) ++ [v]).Nodup) : ∃ x y, prev a = some x ∧ next a = some y ∧
      Doubly (update (update next x (some y)) a none) (update (update prev y (some x)) a none) u (l1 ++ l2) v := by
  obtain ⟨h1, h2⟩ := Doubly.append.1 h
  have hnd' : (u :: (l1 ++ a :: (l2 ++ [v]))).Nodup := by simpa using hnd
  have hnd1 : (u :: l1).Nodup := hnd'.sublist (cons_sublist_cons.2 (sublist_append_left ..))
  have hdisj : ∀ x ∈ u :: l1, ∀ y ∈ a :: (l2 ++ [v]), x ≠ y := by
    rw [← cons_append, nodup_append] at hnd'
    exact hnd'.2.2
  obtain ⟨ha, hrest⟩ := nodup_cons.1 (nodup_append.1 (nodup_cons.1 hnd').2).2.1
  have hau : a ∉ u :: l1 := fun hx => hdisj a hx a mem_cons_self rfl
  -- the successor of `a` is the head of what follows
  obtain ⟨y, hy, hny, htail⟩ : ∃ y ∈ l2 ++ [v], next a = some y ∧
      ∀ next' prev', (∀ b ∈ l2, next' b = next b) → (∀ b ∈ l2 ++ [v], b ≠ y → prev' b = prev b) →
        Doubly next' prev' u l1 y → Doubly next' prev' u (l1 ++ l2) v := by
    cases l2 with
    | nil => exact ⟨v, by simp, h2.1, fun _ _ _ _ hd => by rw [append_nil]; exact hd⟩
    | cons c l2 =>
      refine ⟨c, by simp, h2.1.1, fun next' prev' hn hp hd => Doubly.append.2 ⟨hd, Doubly.congr hn (fun b hb => ?_) h2.2⟩⟩
      refine hp b (mem_cons_of_mem _ hb) (fun hbc => ?_)
      rw [cons_append, nodup_cons] at hrest
      exact hrest.1 (hbc ▸ hb)
  obtain ⟨x, hx, hpx, hd⟩ := h1.redirect (y := y) hnd1 (fun hyl =>
    hdisj y (mem_cons_of_mem _ hyl) y (mem_cons_of_mem _ hy) rfl)
  have hya : y ≠ a := fun hya => ha (hya ▸ hy)
  refine ⟨x, y, hpx, hny, htail _ _ (fun b hb => ?_) (fun b hb hby => ?_) ?_⟩
  · have hba : b ≠ a := fun hba => ha (hba ▸ mem_append_left _ hb)
    have hbx : b ≠ x := fun hbx => hdisj x hx b (mem_cons_of_mem _ (mem_append_left _ hb)) hbx.symm
    rw [update_of_ne hba, update_of_ne hbx]
  · have hba : b ≠ a := fun hba => ha (hba ▸ hb)
    rw [update_of_ne hba, update_of_ne hby]
  · refine Doubly.congr (fun b hb => update_of_ne (fun (hba : b = a) => hau (hba ▸ hb)) _ _)
      (fun b hb => update_of_ne (fun (hba : b = a) => ?_) _ _) hd
    rcases mem_append.1 hb with hb | hb
    · exact hau (mem_cons_of_mem _ (hba ▸ hb))
    · exact hya (hba ▸ (mem_singleton.1 hb).symm)

/-- **Putting a node in** right after `u`. -/
theorem Doubly.insert {u a v : N} {l : List N} (h : Doubly next prev u l v) (hnd : (u :: l ++ [v]).Nodup)
    (ha : a ∉ u :: l ++ [v]) : ∃ y, next u = some y ∧
      Doubly (update (update next a (some y)) u (some a)) (update (update prev a (some u)) y (some a)) u (a :: l) v := by
  have hau : a ≠ u := fun hx => ha (hx ▸ by simp)
  have huv : u ∉ l ++ [v] := (nodup_cons.1 hnd).1
  have hla : ∀ b ∈ l ++ [v], b ≠ a := fun b hb hx => ha (hx ▸ mem_cons_of_mem _ hb)
  have hnd' := (nodup_cons.1 hnd).2
  cases l with
  | nil =>
    have hva : a ≠ v := (hla v (by simp)).symm
    refine ⟨v, h.1, ⟨update_self .., ?_⟩, ?_, update_self ..⟩
    · rw [update_of_ne hva, update_self]
    · rw [update_of_ne hau, update_self]
  | cons c l =>
    have hca : a ≠ c := (hla c (by simp)).symm
    refine ⟨c, h.1.1, ⟨update_self .., ?_⟩, ⟨?_, update_self ..⟩, Doubly.congr (fun b hb => ?_) (fun b hb => ?_) h.2⟩
    · rw [update_of_ne hca, update_self]
    · rw [update_of_ne hau, update_self]
    · have hbu : b ≠ u := fun hx => huv (hx ▸ mem_append_left _ hb)
      rw [update_of_ne hbu, update_of_ne (hla b (mem_append_left _ hb))]
    · have hbc : b ≠ c := fun hx => (nodup_cons.1 hnd').1 (hx ▸ hb)
      rw [update_of_ne hbc, update_of_ne (hla b (mem_cons_of_mem _ hb))]

/-- `while (p && p != u) { if (P(p)) return p; p = p->prev; }`. -/
def scanUntil (prev : N → Option N) (u : N) (P : N → Bool) : Nat → Option N → Option (Option N)
  | _, none => some none
  | 0, some _ => none
  | fuel + 1, some a => if a = u then some none else if P a then some (some a) else scanUntil prev u P fuel (prev a)

theorem scanUntil_eq (P : N → Bool) {u : N} (l : List N) : ∀ {v : N} {fuel : Nat}, Doubly next prev u l v → u ∉ l →
    l.length + 1 ≤ fuel → scanUntil prev u P fuel (prev v) = some (l.reverse.find? P) := by
  induction l using reverseRecOn with
  | nil =>
    intro v fuel h _ hf
    obtain ⟨k, rfl⟩ : ∃ k, fuel = k + 1 := ⟨fuel - 1, by simp at hf; omega⟩
    rw [h.2, scanUntil, if_pos rfl]
    rfl
  | append_singleton l a ih =>
    intro v fuel h hu hf
    rw [length_append, length_singleton] at hf
    obtain ⟨k, rfl⟩ : ∃ k, fuel = k + 1 := ⟨fuel - 1, by omega⟩
    obtain ⟨h1, h2⟩ := Doubly.append.1 h
    rw [mem_append, not_or, mem_singleton] at hu
    rw [h2.2, scanUntil, if_neg (Ne.symm hu.2), reverse_append, reverse_singleton, singleton_append, find?_cons]
    cases P a with
    | true => rfl
    | false => exact ih h1 hu.1 (by omega)

end Doubly

end Linked
end Noxis
