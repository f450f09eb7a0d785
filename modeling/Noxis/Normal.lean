import Noxis.Cwd
/-!
# Normal — what `path_resolve_str` makes of a path

The components of a path are pushed on a stack of 16, a component of 32 bytes or more is left out, and `..` pops.  What does
not fit is dropped while its `..` is not, so that the `..` takes the component below it.  `foldl_pushComp_iff` says when the
stack ends with the components of the normalised path all the same: since the path was last at the root, it has always
fitted.
-/
namespace Noxis

open List Nat

/-! ## The stack -/

def Roomy (st : List Name) : Prop := st.length ≤ 16 ∧ ∀ c ∈ st, c.length ≤ 31

def Fitting (ws : List Name) : Prop :=
  ∃ u v, ws = u ++ v ∧ canon [] u = [] ∧ ∀ v', v' <+: v → Roomy (canon [] (u ++ v'))

theorem canon_snoc (st ws : List Name) (c : Name) : canon st (ws ++ [c]) = canonStep (canon st ws) c := canon_append ..

theorem stack_snoc (ws : List Name) (c : Name) : (ws ++ [c]).foldl pushComp [] = pushComp (ws.foldl pushComp []) c :=
  foldl_append

variable {ws st full : List Name} {c : Name}

theorem stack_mem (h : c ∈ ws.foldl pushComp []) : c ∈ ws := by
  induction ws using reverseRecOn with
  | nil => exact h
  | append_singleton ws d ih =>
    rw [stack_snoc, pushComp] at h
    rw [mem_append]
    split at h
    · exact .inl (ih h)
    split at h
    · exact .inl (ih (mem_of_mem_dropLast h))
    · split at h
      · exact (mem_append.mp h).imp_left ih
      · exact .inl (ih h)

/-- **The stack falls short of the path, or is the path.** -/
theorem stack_cases (ws : List Name) :
    ws.foldl pushComp [] = canon [] ws ∨ (ws.foldl pushComp []).length < (canon [] ws).length := by
  induction ws using reverseRecOn with
  | nil => exact .inl rfl
  | append_singleton ws c ih =>
    rw [stack_snoc, canon_snoc]
    generalize ws.foldl pushComp [] = st at ih ⊢
    generalize canon [] ws = full at ih ⊢
    unfold pushComp canonStep
    by_cases hdot : c = [46]
    · rw [if_pos hdot, if_pos hdot]
      exact ih
    rw [if_neg hdot, if_neg hdot]
    by_cases hdots : c = [46, 46]
    · rw [if_pos hdots, if_pos hdots, length_dropLast, length_dropLast]
      rcases ih with rfl | hlt
      · exact .inl rfl
      by_cases h1 : full.length = 1
      · -- the last component is gone, and the stack was empty
        refine .inl ?_
        rw [eq_nil_of_length_eq_zero (show st.length = 0 by omega),
          eq_nil_of_length_eq_zero (show full.dropLast.length = 0 by rw [length_dropLast]; omega)]
        rfl
      · exact .inr (by omega)
    rw [if_neg hdots, if_neg hdots]
    by_cases hroom : st.length < 16 ∧ c.length < 32
    · rw [if_pos hroom]
      rcases ih with rfl | hlt
      · exact .inl rfl
      · exact .inr (by rw [length_append, length_append]; omega)
    · rw [if_neg hroom]
      refine .inr ?_
      rw [length_append, length_singleton]
      rcases ih with rfl | hlt <;> omega

theorem Fitting.snoc (h : Fitting ws) (hr : Roomy (canon [] (ws ++ [c]))) : Fitting (ws ++ [c]) := by
  obtain ⟨u, v, rfl, hu, hv⟩ := h
  refine ⟨u, v ++ [c], append_assoc .., hu, fun v' hp => ?_⟩
  rcases prefix_concat_iff.mp hp with rfl | hp
  · rw [← append_assoc]
    exact hr
  · exact hv v' hp

theorem Fitting.roomy (h : Fitting ws) : Roomy (canon [] ws) := by
  obtain ⟨u, v, rfl, -, hv⟩ := h
  exact hv v prefix_rfl

theorem Roomy.step (h : Roomy (canonStep st c)) : pushComp st c = canonStep st c := by
  unfold pushComp canonStep at *
  by_cases hdot : c = [46]
  · rw [if_pos hdot, if_pos hdot]
  by_cases hdots : c = [46, 46]
  · rw [if_neg hdot, if_pos hdots, if_neg hdot, if_pos hdots]
  rw [if_neg hdot, if_neg hdots] at *
  obtain ⟨h1, h2⟩ := h
  have hc := h2 c (mem_append_right _ (mem_singleton_self c))
  rw [length_append, length_singleton] at h1
  rw [if_neg hdot, if_neg hdots, if_pos ⟨by omega, by omega⟩]

theorem roomy_nil : Roomy [] := ⟨zero_le _, fun _ hc => absurd hc not_mem_nil⟩

theorem Roomy.step_of_eq (h : Roomy st) (heq : pushComp st c = canonStep st c) : Roomy (canonStep st c) := by
  unfold pushComp at heq
  unfold canonStep at *
  by_cases hdot : c = [46]
  · rw [if_pos hdot]
    exact h
  by_cases hdots : c = [46, 46]
  · rw [if_neg hdot, if_pos hdots]
    refine ⟨?_, fun d hd => h.2 d (mem_of_mem_dropLast hd)⟩
    have h1 := h.1
    rw [length_dropLast]
    omega
  rw [if_neg hdot, if_neg hdots, if_neg hdot, if_neg hdots] at heq
  rw [if_neg hdot, if_neg hdots]
  by_cases hroom : st.length < 16 ∧ c.length < 32
  · refine ⟨by rw [length_append]; exact hroom.1, fun d hd => ?_⟩
    rcases mem_append.mp hd with hd | hd
    · exact h.2 d hd
    · rw [mem_singleton.mp hd]
      omega
  · rw [if_neg hroom] at heq
    have hlen := congrArg length heq
    rw [length_append, length_singleton] at hlen
    omega

theorem caught_up (hlt : st.length < full.length) (h : pushComp st c = canonStep full c) : canonStep full c = [] := by
  have hlen := congrArg length h
  unfold pushComp canonStep at hlen
  unfold canonStep
  by_cases hdot : c = [46]
  · rw [if_pos hdot, if_pos hdot] at hlen
    omega
  rw [if_neg hdot, if_neg hdot] at hlen
  by_cases hdots : c = [46, 46]
  · rw [if_pos hdots, if_pos hdots, length_dropLast, length_dropLast] at hlen
    rw [if_neg hdot, if_pos hdots]
    exact eq_nil_of_length_eq_zero (by rw [length_dropLast]; omega)
  rw [if_neg hdots, if_neg hdots] at hlen
  split at hlen
  · rw [length_append, length_append] at hlen
    omega
  · rw [length_append] at hlen
    omega

theorem Fitting.of_root (h : canon [] ws = []) : Fitting ws :=
  ⟨ws, [], (append_nil ws).symm, h, fun v' hp => by rw [prefix_nil.mp hp, append_nil, h]; exact roomy_nil⟩

/-- **When the stack ends with the components of the path.** -/
theorem foldl_pushComp_iff (ws : List Name) : ws.foldl pushComp [] = canon [] ws ↔ Fitting ws := by
  constructor
  · induction ws using reverseRecOn with
    | nil => exact fun _ => Fitting.of_root rfl
    | append_singleton ws c ih =>
      intro h
      rw [stack_snoc, canon_snoc] at h
      rcases stack_cases ws with heq | hlt
      · rw [heq] at h
        have hfit := ih heq
        exact hfit.snoc (by rw [canon_snoc]; exact hfit.roomy.step_of_eq h)
      · exact Fitting.of_root (by rw [canon_snoc]; exact caught_up hlt h)
  · rintro ⟨u, v, rfl, hu, hv⟩
    induction v using reverseRecOn with
    | nil =>
      rw [append_nil]
      exact (stack_cases u).resolve_right (by rw [hu]; exact not_lt_zero _)
    | append_singleton v c ih =>
      have hroomy := hv (v ++ [c]) prefix_rfl
      rw [← append_assoc] at hroomy ⊢
      rw [canon_snoc] at hroomy
      rw [stack_snoc, canon_snoc, ih fun v' hp => hv v' (hp.trans (prefix_append ..)), hroomy.step]

/-! ## The text -/

theorem render_slashes (size : Nat) : ∀ (cs : List Name) (i : Nat) (dst : List UInt8), 0 < i → (∀ c ∈ cs, (47 : UInt8) ∉ c) →
    (render size i dst cs).count 47 ≤ dst.count 47 + cs.length
  | [], _, _, _, _ => le_refl _
  | c :: cs, i, dst, hi, h => by
    rw [render]
    split
    · have hc : (c.take (size - 1 - (dst ++ [47]).length)).count 47 = 0 :=
        count_eq_zero_of_not_mem fun hm => h c mem_cons_self (mem_of_mem_take hm)
      have hrec := render_slashes size cs (i + 1) (dst ++ [47] ++ c.take (size - 1 - (dst ++ [47]).length)) (succ_pos i)
        fun d hd => h d (mem_cons_of_mem c hd)
      rw [count_append, count_append, hc, count_singleton_self] at hrec
      dsimp only
      rw [length_cons]
      omega
    · rw [length_cons]
      omega

theorem slashed_slashes : ∀ cs : List Name, (∀ c ∈ cs, (47 : UInt8) ∉ c) → (slashed cs).count 47 = cs.length
  | [], _ => rfl
  | c :: cs, h => by
    rw [slashed_cons, cons_append, count_cons_self, count_append, length_cons,
      count_eq_zero_of_not_mem (h c mem_cons_self), slashed_slashes cs fun d hd => h d (mem_cons_of_mem c hd), zero_add]

theorem render_ne {size : Nat} (hst : ∀ c ∈ st, (47 : UInt8) ∉ c)
    (hfull : ∀ c ∈ full, c ≠ [] ∧ (47 : UInt8) ∉ c) (hlt : st.length < full.length) : render size 0 [47] st ≠ pathText full := by
  intro heq
  have hne : full ≠ [] := fun h => by rw [h] at hlt; exact not_lt_zero _ hlt
  rw [pathText, if_neg hne] at heq
  cases st with
  | nil =>
    obtain ⟨c, cs, rfl⟩ := exists_cons_of_ne_nil hne
    rw [render, slashed_cons] at heq
    have hlen := congrArg length heq
    have hc := length_pos_iff.mpr (hfull c mem_cons_self).1
    rw [length_singleton, length_append, length_cons] at hlen
    omega
  | cons c cs =>
    have hcount := congrArg (count 47) heq
    rw [slashed_slashes full fun d hd => (hfull d hd).2, render] at hcount
    rw [length_cons] at hlt
    split at hcount
    · have hc : (c.take (size - 1 - [(47 : UInt8)].length)).count 47 = 0 :=
        count_eq_zero_of_not_mem fun hm => hst c mem_cons_self (mem_of_mem_take hm)
      have hle := render_slashes size cs (0 + 1) ([47] ++ c.take (size - 1 - [(47 : UInt8)].length)) (succ_pos 0)
        fun d hd => hst d (mem_cons_of_mem c hd)
      dsimp only at hcount
      rw [if_neg (lt_irrefl 0)] at hcount
      rw [count_append, hc, count_singleton_self] at hle
      omega
    · rw [count_singleton_self] at hcount
      omega

/-! ## The stores -/

theorem render_length {size : Nat} (hsize : 2 ≤ size) : ∀ (cs : List Name) (i : Nat) (dst : List UInt8), dst.length < size →
    (render size i dst cs).length < size
  | [], _, _, h => h
  | c :: cs, i, dst, h => by
    rw [render]
    split
    · dsimp only
      refine render_length hsize cs _ _ ?_
      rw [length_append, length_take]
      split
      · rw [length_append, length_singleton]
        omega
      · omega
    · exact h

/-- The stores that leave a string at the start of an array: index and byte. -/
def stringStores (s : List UInt8) : List (Nat × UInt8) := (s ++ [0]).zipIdx.map Prod.swap

theorem stringStores_lt {s : List UInt8} {n : Nat} : (∀ x ∈ stringStores s, x.1 < n) ↔ s.length < n := by
  unfold stringStores
  constructor
  · intro h
    have hlast : (0, s.length) ∈ (s ++ [(0 : UInt8)]).zipIdx := by
      rw [mk_mem_zipIdx_iff_getElem?, getElem?_append_right (le_refl _), Nat.sub_self]
      rfl
    exact h _ (mem_map_of_mem hlast)
  · intro h x hx
    obtain ⟨⟨b, i⟩, hy, rfl⟩ := mem_map.mp hx
    have hi := snd_lt_of_mem_zipIdx hy
    rw [length_append, length_singleton] at hi
    change i < n
    omega

theorem joined_lt_iff (base rel : List UInt8) : (joined base rel).length < 256 ↔
    (rel.head? ≠ some 47 → 255 ≤ base.length → (base.take 255).getLast? = some 47) := by
  unfold joined
  by_cases habs : rel.head? = some 47
  · rw [if_pos habs, length_take]
    exact ⟨fun _ hc => absurd habs hc, fun _ => by omega⟩
  rw [if_neg habs]
  dsimp only
  rw [length_append, length_take]
  split
  next hslash =>
    rw [length_append, length_take, length_singleton]
    constructor
    · intro hlt _ hlong
      omega
    · intro h
      have hshort : base.length < 255 := by
        by_contra hlong
        exact hslash.2 (h habs (by omega))
      omega
  next hslash =>
    rw [length_take]
    refine ⟨fun _ _ hlong => ?_, fun _ => by omega⟩
    by_contra hne
    refine hslash ⟨fun hnil => ?_, hne⟩
    have hlen := congrArg length hnil
    rw [length_take, length_nil] at hlen
    omega

/-! ## path_resolve_str -/

def normal (base rel : List UInt8) : List Name := canon [] (words (fullText base rel).length (fullText base rel))

/-- **When a path is normalised exactly.**  The text `path_resolve_str` writes is the normalised path, for all that fit
`cwd_path`, exactly if the components have fitted the stack since the path was last at the root; its stores stay in `dst`, and
in `tmp` unless the base takes 255 bytes and a slash. -/
theorem pathResolveStr_iff (base rel : List UInt8) :
    (base.length + rel.length ≤ 254 → (pathText (normal base rel)).length ≤ 126 →
      (pathResolveStr 128 base rel = pathText (normal base rel) ↔ Fitting (words (fullText base rel).length (fullText base rel)))) ∧
    (∀ x ∈ stringStores (pathResolveStr 128 base rel), x.1 < 128) ∧ ((∀ x ∈ stringStores (joined base rel), x.1 < 256) ↔
      (rel.head? ≠ some 47 → 255 ≤ base.length → (base.take 255).getLast? = some 47)) := by
  refine ⟨fun hlen htext => ?_, stringStores_lt.mpr (render_length (by decide) _ _ _ (by decide)),
    stringStores_lt.trans (joined_lt_iff base rel)⟩
  have hfull : (fullText base rel).length ≤ 255 := by
    unfold fullText
    split
    · omega
    rw [length_append]
    split
    · rw [length_append, length_singleton]
      omega
    · omega
  have hplain := words_plain (fullText base rel).length (fullText base rel)
  unfold pathResolveStr normal at *
  rw [joined_eq hfull, ← foldl_pushComp_iff]
  generalize words (fullText base rel).length (fullText base rel) = ws at *
  have hcanon : ∀ c ∈ canon [] ws, c ≠ [] ∧ (47 : UInt8) ∉ c :=
    canon_all ws [] (fun _ hc => absurd hc not_mem_nil) fun c hc _ _ => hplain c hc
  constructor
  · intro heq
    refine (stack_cases ws).resolve_right fun hlt => ?_
    exact render_ne (fun c hc => (hplain c (stack_mem hc)).2) hcanon hlt heq
  · intro heq
    rw [heq]
    exact render_eq (by decide) (fun c hc => (hcanon c hc).1) (by omega)

/-- `a/../b` from the root. -/
theorem pathResolveStr_up : pathResolveStr 128 [47] [97, 47, 46, 46, 47, 98] = pathText [[98]] := by
  refine ((pathResolveStr_iff [47] [97, 47, 46, 46, 47, 98]).1 (by decide) (by decide)).mpr ⟨[], _, rfl, rfl, fun v' hp => ?_⟩
  have hv : v' ∈ [[], [[97]], [[97], [46, 46]], [[97], [46, 46], [98]]] := (mem_inits _ _).mpr hp
  fin_cases hv <;> exact ⟨by decide, by decide⟩

def longComp : Name := List.replicate 32 97

/-- **The `..` of a component that is too long takes the one before it**: `/b` and the path of 32 bytes with its `..` give `/`;
and a base of 255 bytes makes the text go over the end of `tmp`. -/
theorem pathResolveStr_pops_wrong : normal [47, 98] (longComp ++ [47, 46, 46]) = [[98]] ∧
    pathResolveStr 128 [47, 98] (longComp ++ [47, 46, 46]) = [47] ∧
    ¬ ∀ x ∈ stringStores (joined (List.replicate 255 97) []), x.1 < 256 := by
  refine ⟨by decide, by decide, fun h => ?_⟩
  have hlen : (replicate 255 (97 : UInt8)).length = 255 := length_replicate
  have hslash := (joined_lt_iff _ _).mp (stringStores_lt.mp h) (by decide) (le_of_eq hlen.symm)
  rw [take_of_length_le (le_of_eq hlen), getLast?_replicate] at hslash
  exact absurd hslash (by decide)

end Noxis
