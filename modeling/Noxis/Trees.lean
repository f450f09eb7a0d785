import Noxis.VmTables
/-!
# Trees — page-table trees that share no table, and what mapping a page does to them

`Trees` is the least that the tables of a set of address spaces have to satisfy: no table is reached along two paths, and
every table is marked in the frame bitmap.  What the leaves map does not matter.  One level of `vmm_map_page_into` keeps
that whether it succeeds or not (`ensureTable_levelled`), and so does the whole of it (`vmmMapPageInto_trees`): on success
one leaf changes, on failure none.
-/
namespace Noxis

open List Option Radix Vm

structure Trees (s : Vm) (R : List Nat) : Prop where
  nframes : s.pmm.nframes ≤ MAX_FRAMES
  unshared : Unshared s.child R TabPath
  used : ∀ a ∈ R, ∀ p t, TabPath p → follow s.child a p = some t → s.pmm.used t = true

variable {s : Vm} {R p : List Nat}

theorem Shape.trees (h : Shape s R) : Trees s R :=
  ⟨h.nframes, h.unshared, fun a ha p t hp ht => (h.tabHeld a ha p t hp ht).used⟩

theorem entry_frame_lt (s : Vm) (t i : Nat) : (s.entry t i).frame < 2 ^ 52 := by
  have := leRead_lt (s.mem t) 8 (8 * i)
  unfold entry Pte.ofWord
  dsimp only
  omega

theorem Trees.fresh (h : Trees s R) {c : Nat} (hc : s.pmm.used c = false) :
    ∀ a ∈ R, ∀ p, TabPath p → follow s.child a p ≠ some c := by
  intro a ha p hp ht
  have := h.used a ha p c hp ht
  rw [hc] at this
  cases this

theorem Trees.of_follow {s' : Vm} (h : Trees s R) (hn : s'.pmm.nframes = s.pmm.nframes)
    (hf : ∀ a ∈ R, ∀ p, TabPath p → follow s'.child a p = follow s.child a p)
    (hu : ∀ t, s.pmm.used t = true → s'.pmm.used t = true) : Trees s' R := by
  refine ⟨by rw [hn]; exact h.nframes, fun r r' p p' t hr hr' hp hp' h1 h2 => ?_, fun a ha p t hp ht => ?_⟩
  · rw [hf r hr p hp] at h1
    rw [hf r' hr' p' hp'] at h2
    exact h.unshared r r' p p' t hr hr' hp hp' h1 h2
  · rw [hf a ha p hp] at ht
    exact hu t (h.used a ha p t hp ht)

/-! ## A leaf -/

section Leaf

variable {s : Vm} {R : List Nat} {a v pt : Nat} {e : Pte} {b : Nat} {p : List Nat}

section

variable (h : Trees s R) (ha : a ∈ R) (hpt : follow s.child a (ptPath v) = some pt)
include h ha hpt

/-- **Storing a leaf entry** changes no path to a table, because those are too short to run through it. -/
theorem Trees.follow_set (hb : b ∈ R) (hp : TabPath p) : follow (s.setEntry pt (v % 512) e).child b p = follow s.child b p := by
  refine follow_of_store h.unshared ha (tabPath_ptPath v) hpt
    (fun t' i' hn => child_congr (entry_setEntry_ne hn)) hb (tabPath_closed.inner hp) (fun hc => ?_)
  have h1 := hc.2.length_le
  have h2 := hp.1
  simp [ptPath] at h1
  omega

theorem Trees.entry_set {t i : Nat} (hb : b ∈ R) (hp : TabPath p) (ht : follow s.child b p = some t)
    (hout : ¬ (b = a ∧ p = ptPath v ∧ i = v % 512)) : (s.setEntry pt (v % 512) e).entry t i = s.entry t i := by
  apply entry_setEntry_ne
  rintro ⟨rfl, rfl⟩
  obtain ⟨rfl, rfl⟩ := h.unshared a b (ptPath v) p t ha hb (tabPath_ptPath v) hp hpt ht
  exact hout ⟨rfl, rfl, rfl⟩

theorem Trees.leaf_set_self (hlt : e.frame < 2 ^ 52) (hpres : e.present = true) : (s.setEntry pt (v % 512) e).leaf a v = some
    e :=
  leaf_eq_some.2 ⟨pt, by rw [h.follow_set ha hpt ha (tabPath_ptPath v), hpt], entry_setEntry hlt, hpres⟩

end

theorem Trees.leaf_set_ne (h : Trees s R) (ha : a ∈ R) (hv : v < userPages) (hpt : follow s.child a (ptPath v) = some pt)
    {w : Nat} (hb : b ∈ R) (hw : w < userPages) (hout : ¬ (b = a ∧ w = v)) :
    (s.setEntry pt (v % 512) e).leaf b w = s.leaf b w := by
  unfold leaf
  rw [h.follow_set ha hpt hb (tabPath_ptPath w)]
  cases ht : follow s.child b (ptPath w) with
  | none => simp only [bind_none]
  | some t =>
    have he := h.entry_set (e := e) (i := w % 512) ha hpt hb (tabPath_ptPath w) ht (fun hc =>
      hout ⟨hc.1, ptPath_inj w v hw hv hc.2.1 hc.2.2⟩)
    simp only [bind_some, he]

end Leaf

/-! ## A level of tables -/

def WalkPath (p : List Nat) : Prop := ∃ v, p <+: ptPath v

theorem WalkPath.of_append {q : List Nat} (h : WalkPath (p ++ q)) : WalkPath p := by
  obtain ⟨v, hv⟩ := h
  exact ⟨v, (prefix_append p q).trans hv⟩

theorem WalkPath.tabPath (h : WalkPath p) : TabPath p := by
  obtain ⟨v, hv⟩ := h
  refine ⟨hv.length_le, fun i hi => (tabPath_ptPath v).2 i ?_⟩
  obtain ⟨rest, hr⟩ := hv
  rw [← hr, List.head?_append, hi]
  rfl

theorem walkPath_ptPath (v : Nat) : WalkPath (ptPath v) := ⟨v, prefix_rfl⟩

/-- The tables of `a` may have grown by fresh frames; the other tables, every allocated frame that is no table of `a` and
the reference counts are as before. -/
structure Grew (s s' : Vm) (R : List Nat) (a : Nat) : Prop where
  mono : ∀ b ∈ R, ∀ p t, TabPath p → follow s.child b p = some t → follow s'.child b p = some t
  other : ∀ b ∈ R, b ≠ a → ∀ p, TabPath p → follow s'.child b p = follow s.child b p
  new : ∀ p t, TabPath p → follow s'.child a p = some t → follow s.child a p = some t ∨ s.pmm.used t = false
  nframes : s'.pmm.nframes = s.pmm.nframes
  held : ∀ f, s.pmm.used f = true → s'.pmm.used f = true ∧ s'.pmm.refcount f = s.pmm.refcount f
  mem : ∀ f, s.pmm.used f = true → (∀ p, TabPath p → follow s.child a p ≠ some f) → s'.mem f = s.mem f
  kpml4 : s'.kpml4 = s.kpml4
  -- frame 0 is what an allocation that answers 0 may have taken
  owns : ∀ f, s'.pmm.used f = true → s.pmm.used f = true ∨ f = 0 ∨ ∃ p, WalkPath p ∧ follow s'.child a p = some f
  idle : ∀ f, s'.pmm.used f = false → s'.pmm.refcount f = s.pmm.refcount f
  -- the entries of the PML4 outside the user half
  root : ∀ j, j ≠ 0 → s'.entry a j = s.entry a j

namespace Grew

variable {s s' s'' : Vm} {R : List Nat} {a : Nat}

theorem refl (s : Vm) (R : List Nat) (a : Nat) : Grew s s R a :=
  ⟨fun _ _ _ _ _ h => h, fun _ _ _ _ _ => rfl, fun _ _ _ h => .inl h, rfl, fun _ h => ⟨h, rfl⟩, fun _ _ _ => rfl, rfl,
    fun _ h => .inl h, fun _ _ => rfl, fun _ _ => rfl⟩

theorem trans (ha : a ∈ R) (h1 : Grew s s' R a) (h2 : Grew s' s'' R a) : Grew s s'' R a := by
  refine ⟨?_, ?_, ?_, h2.nframes.trans h1.nframes, ?_, ?_, h2.kpml4.trans h1.kpml4, ?_, ?_,
    fun j hj => (h2.root j hj).trans (h1.root j hj)⟩
  · intro b hb p t hp ht; exact h2.mono b hb p t hp (h1.mono b hb p t hp ht)
  · intro b hb hne p hp; rw [h2.other b hb hne p hp, h1.other b hb hne p hp]
  · intro p t hp ht
    rcases h2.new p t hp ht with ht | hu
    · exact h1.new p t hp ht
    · refine .inr ?_
      cases hs : s.pmm.used t with
      | false => rfl
      | true => rw [(h1.held t hs).1] at hu; cases hu
  · intro f hf
    obtain ⟨hu, hr⟩ := h1.held f hf
    exact ⟨(h2.held f hu).1, (h2.held f hu).2.trans hr⟩
  · intro f hf hout
    rw [h2.mem f (h1.held f hf).1 (fun p hp ht => ?_), h1.mem f hf hout]
    rcases h1.new p f hp ht with ht | hu
    · exact hout p hp ht
    · rw [hf] at hu; cases hu
  · intro f hf
    rcases h2.owns f hf with hf | h0 | hp
    · rcases h1.owns f hf with hf | h0 | ⟨p, hp, ht⟩
      · exact .inl hf
      · exact .inr (.inl h0)
      · exact .inr (.inr ⟨p, hp, h2.mono a ha p f hp.tabPath ht⟩)
    · exact .inr (.inl h0)
    · exact .inr (.inr hp)
  · intro f hf
    refine (h2.idle f hf).trans (h1.idle f ?_)
    cases hu : s'.pmm.used f with
    | false => rfl
    | true => rw [(h2.held f hu).1] at hf; cases hf

variable {f : Nat}

theorem heldFrame (h : Grew s s' R a) (hf : s.pmm.Held f) : s'.pmm.Held f := by
  obtain ⟨h1, h2⟩ := h.held f hf.used
  exact ⟨by rw [h.nframes]; exact hf.lt, h1, by rw [h2]; exact hf.pos⟩

theorem notTab (h : Grew s s' R a) (hf : s.pmm.used f = true) (hout : ∀ b ∈ R, ∀ p, TabPath p → follow s.child b p ≠ some f) :
    ∀ b ∈ R, ∀ p, TabPath p → follow s'.child b p ≠ some f := by
  intro b hb p hp ht
  by_cases hba : b = a
  · subst hba
    rcases h.new p f hp ht with ht | hu
    · exact hout b hb p hp ht
    · rw [hf] at hu; cases hu
  · rw [h.other b hb hba p hp] at ht
    exact hout b hb p hp ht

end Grew

/-- **What one level of `vmm_map_page_into` has done**, at entry `i` of the table `t` of `a`; `ok` is its answer. -/
structure Levelled (s s' : Vm) (R : List Nat) (a t i : Nat) (u : Flags) (ok : Bool) : Prop where
  trees : Trees s' R
  grew : Grew s s' R a
  leaf : ∀ b ∈ R, ∀ v, s'.leaf b v = s.leaf b v
  down : ok = true → (s'.entry t i).present = true
  flags : ok = true → (s'.entry t i).flags =
    if (s.entry t i).present then (s.entry t i).flags ||| u else PAGE_PRESENT ||| PAGE_RW ||| u
  entries : ∀ b ∈ R, ∀ q x j, TabPath (q ++ [j]) → follow s'.child b q = some x → (s'.entry x j).present = true →
    (ok = true ∧ x = t ∧ j = i) ∨ (follow s.child b q = some x ∧ s'.entry x j = s.entry x j)
  fresh : ∀ q x, TabPath q → follow s'.child a q = some x → follow s.child a q = some x ∨
    (s.pmm.used x = false ∧ s'.pmm.Held x ∧ s'.pmm.refcount x = 1)

theorem present_or (fl u : Flags) (h : hasFlag fl PAGE_PRESENT = true) : hasFlag (fl ||| u) PAGE_PRESENT = true := by
  rw [hasFlag_present] at h ⊢
  rw [BitVec.getLsbD_or, h, Bool.true_or]

section Level

variable {s : Vm} {R : List Nat} {a t i : Nat} {p : List Nat}

section

variable (h : Trees s R) (ha : a ∈ R) (hpi : WalkPath (p ++ [i]))
include h ha hpi

theorem Trees.above (ht : follow s.child a p = some t) {b w x : Nat} (hb : b ∈ R)
    (hx : follow s.child b (ptPath w) = some x) : x ≠ t := by
  rintro rfl
  obtain ⟨-, hpp⟩ := h.unshared a b p (ptPath w) x ha hb hpi.of_append.tabPath (tabPath_ptPath w) ht hx
  have := hpi.tabPath.1
  rw [hpp] at this
  simp [ptPath] at this

theorem Trees.root_index (ht : follow s.child a p = some a) : i = 0 := by
  obtain ⟨-, rfl⟩ := h.unshared a a p [] a ha ha hpi.of_append.tabPath tabPath_nil ht rfl
  exact hpi.tabPath.2 i rfl

theorem Trees.level_present (ht : follow s.child a p = some t) (u : Flags) (hpres : (s.entry t i).present = true) :
    Levelled s (s.setEntry t i ⟨(s.entry t i).frame, (s.entry t i).flags ||| u⟩) R a t i u true := by
  have hsame := entry_setEntry (s := s) (t := t) (i := i) (e := ⟨(s.entry t i).frame, (s.entry t i).flags ||| u⟩) (entry_frame_lt s t i)
  set r := s.setEntry t i ⟨(s.entry t i).frame, (s.entry t i).flags ||| u⟩
  have hne : ∀ t' i', ¬ (t' = t ∧ i' = i) → r.entry t' i' = s.entry t' i' := fun _ _ => entry_setEntry_ne
  have hmem : ∀ f, f ≠ t → r.mem f = s.mem f := fun _ => mem_setEntry_ne
  have hdown : (r.entry t i).present = true := by
    rw [hsame]
    exact present_or _ u hpres
  have hchild : r.child = s.child := by
    funext t' i'
    by_cases ho : t' = t ∧ i' = i
    · obtain ⟨rfl, rfl⟩ := ho
      rw [child_eq_some.2 ⟨hpres, rfl⟩, child_eq_some]
      exact ⟨hdown, by rw [hsame]⟩
    · exact child_congr (hne t' i' ho)
  have hpmm : r.pmm = s.pmm := rfl
  have hk : r.kpml4 = s.kpml4 := rfl
  generalize s.setEntry t i ⟨(s.entry t i).frame, (s.entry t i).flags ||| u⟩ = s' at *
  refine ⟨h.of_follow (by rw [hpmm]) (fun b hb q hq => by rw [hchild]) (fun x hx => by rw [hpmm]; exact hx), ?_, ?_,
    fun _ => hdown, fun _ => by rw [hsame, if_pos hpres], ?_, fun q x hq hx => .inl (by rw [← hchild]; exact hx)⟩
  · refine ⟨by rw [hchild]; exact fun _ _ _ _ _ h => h, by rw [hchild]; exact fun _ _ _ _ _ => rfl,
      by rw [hchild]; exact fun _ _ _ h => .inl h, by rw [hpmm], fun f hf => by rw [hpmm]; exact ⟨hf, rfl⟩, ?_, hk,
      fun f hf => .inl (by rw [← hpmm]; exact hf), fun f _ => by rw [hpmm],
      fun j hj => hne a j (fun hc => hj (hc.2.trans (h.root_index ha hpi (hc.1 ▸ ht))))⟩
    intro f _ hout
    exact hmem f (fun hc => hout p hpi.of_append.tabPath (hc ▸ ht))
  · intro b hb w
    unfold leaf
    rw [hchild]
    cases hx : follow s.child b (ptPath w) with
    | none => simp only [bind_none]
    | some x =>
      have he := hne x (w % 512) (fun hc => h.above ha hpi ht hb hx hc.1)
      simp only [bind_some, he]
  · intro b hb q x j hqj hx hpj
    by_cases ho : x = t ∧ j = i
    · exact .inl ⟨rfl, ho⟩
    · exact .inr ⟨by rw [← hchild]; exact hx, hne x j ho⟩

theorem Trees.level_missing (ht : follow s.child a p = some t) (u : Flags) (hpres : ¬ (s.entry t i).present = true)
    (h0 : s.allocFrame.1 ≠ 0) : Levelled s ((s.allocFrame.2.zeroTable s.allocFrame.1).setEntry t i
    ⟨s.allocFrame.1, PAGE_PRESENT ||| PAGE_RW ||| u⟩) R a t i u true := by
  have hp : TabPath p := hpi.of_append.tabPath
  obtain ⟨-, hclt, hcu, hch, hcr, hcn, hoth⟩ := pmmAllocFrame_took s.pmm h0
  generalize hcdef : (pmmAllocFrame s.pmm).1 = c at *
  rw [show s.allocFrame.1 = c from hcdef]
  have hftab := h.fresh hcu
  have hct : t ≠ c := fun hc => hftab a ha p hp (hc ▸ ht)
  have hc52 : c < 2 ^ 52 := by
    have := h.nframes
    unfold MAX_FRAMES at this
    omega
  generalize hs' : (s.allocFrame.2.zeroTable c).setEntry t i ⟨c, PAGE_PRESENT ||| PAGE_RW ||| u⟩ = s'
  have hmem : ∀ f, f ≠ t → f ≠ c → s'.mem f = s.mem f := by
    intro f h1 h2
    rw [← hs', mem_setEntry_ne h1]
    exact mem_setFrame_ne h2
  have hpmm : s'.pmm = (pmmAllocFrame s.pmm).2 := by rw [← hs']; rfl
  have hent : s'.entry t i = ⟨c, PAGE_PRESENT ||| PAGE_RW ||| u⟩ := by
    rw [← hs']
    exact entry_setEntry hc52
  have hentne : ∀ t' i', t' ≠ c → ¬ (t' = t ∧ i' = i) → s'.entry t' i' = s.entry t' i' := by
    intro t' i' h1 h2
    rw [← hs', entry_setEntry_ne h2]
    exact entry_congr (mem_setFrame_ne h1)
  have hentc : ∀ j, s'.entry c j = ⟨0, 0⟩ := by
    intro j
    rw [← hs', entry_setEntry_ne (fun hc => hct hc.1.symm)]
    exact entry_zeroTable _ c j
  have hcne : ∀ t' i', t' ≠ c → ¬ (t' = t ∧ i' = i) → s'.child t' i' = s.child t' i' := fun t' i' h1 h2 =>
    child_congr (hentne t' i' h1 h2)
  have hdown : (s'.entry t i).present = true := by
    rw [hent]
    exact present_or _ u (present_or _ PAGE_RW (by decide))
  have hcc : s'.child t i = some c := child_eq_some.2 ⟨hdown, by rw [hent]⟩
  have hempty : ∀ j, s'.child c j = none := by
    intro j
    unfold child
    rw [hentc j]
    rfl
  have hnone : s.child t i = none := by
    unfold child
    rw [if_neg hpres]
  have hcases := fun (b : Nat) (hb : b ∈ R) (q : List Nat) (hq : TabPath q) (x : Nat) (hx : follow s'.child b q = some x) =>
    follow_link_cases h.unshared tabPath_closed ha hpi.tabPath ht hftab hcne hcc hempty hb hq hx
  have hmono : ∀ b ∈ R, ∀ q x, TabPath q → follow s.child b q = some x → follow s'.child b q = some x :=
    fun b hb q x hq hx => follow_link_mono h.unshared ha hp ht hnone hftab hcne hb (tabPath_closed.inner hq) hx
  have hkeep : ∀ f, s.pmm.used f = true → s'.pmm.used f = true ∧ s'.pmm.refcount f = s.pmm.refcount f := by
    intro f hf
    have hfc : f ≠ c := fun hc => by rw [hc, hcu] at hf; cases hf
    rw [hpmm, (hoth f hfc).1, (hoth f hfc).2]
    exact ⟨hf, rfl⟩
  refine ⟨⟨by rw [hpmm, hcn]; exact h.nframes, unshared_of_link h.unshared tabPath_closed ha hpi.tabPath ht hftab hcne hcc hempty, ?_⟩,
    ⟨hmono, ?_, ?_, by rw [hpmm, hcn], hkeep, ?_, by rw [← hs']; rfl, ?_, ?_, ?_⟩, ?_, fun _ => hdown, fun _ => by rw [hent, if_neg hpres],
    ?_, ?_⟩
  · intro b hb q x hq hx
    rcases hcases b hb q hq x hx with ⟨-, -, rfl⟩ | hx
    · rw [hpmm]
      exact hch.used
    · exact (hkeep x (h.used b hb q x hq hx)).1
  · intro b hb hne q hq
    exact follow_of_link h.unshared ha hp ht hftab hcne hb (tabPath_closed.inner hq) (fun hc => hne hc.1)
  · intro q x hq hx
    rcases hcases a ha q hq x hx with ⟨-, -, rfl⟩ | hx
    · exact .inr hcu
    · exact .inl hx
  · intro f hf hout
    exact hmem f (fun hc => hout p hp (hc ▸ ht)) (fun hc => by rw [hc, hcu] at hf; cases hf)
  · intro f hf
    by_cases hfc : f = c
    · refine .inr (.inr ⟨p ++ [i], hpi, ?_⟩)
      rw [follow_snoc, hmono a ha p t hp ht, bind_some, hcc, hfc]
    · rw [hpmm, (hoth f hfc).1] at hf
      exact .inl hf
  · intro f hf
    have hfc : f ≠ c := fun hc => by rw [hc, hpmm, hch.used] at hf; cases hf
    rw [hpmm, (hoth f hfc).2]
  · exact fun j hj => hentne a j (fun hc => hftab a ha [] tabPath_nil (hc ▸ rfl))
      (fun hc => hj (hc.2.trans (h.root_index ha hpi (hc.1 ▸ ht))))
  · intro b hb w
    unfold leaf
    cases hx : follow s.child b (ptPath w) with
    | some x =>
      have hxc : x ≠ c := fun hc => hftab b hb _ (tabPath_ptPath w) (hc ▸ hx)
      have he := hentne x (w % 512) hxc (fun hc => h.above ha hpi ht hb hx hc.1)
      rw [hmono b hb _ x (tabPath_ptPath w) hx]
      simp only [bind_some, he]
    | none =>
      cases hx' : follow s'.child b (ptPath w) with
      | none => simp only [bind_none]
      | some x =>
        -- the new table is empty
        rcases hcases b hb _ (tabPath_ptPath w) x hx' with ⟨-, -, rfl⟩ | hx''
        · simp only [bind_some, hentc]
          rfl
        · rw [hx] at hx''
          cases hx''
  · intro b hb q x j hqj hx hpj
    have hq : TabPath q := tabPath_closed q j [] hqj
    rcases hcases b hb q hq x hx with ⟨-, -, rfl⟩ | hx
    · rw [hentc] at hpj
      cases hpj
    · by_cases ho : x = t ∧ j = i
      · exact .inl ⟨rfl, ho⟩
      · exact .inr ⟨hx, hentne x j (fun hc => hftab b hb q hq (hc ▸ hx)) ho⟩
  · intro q x hq hx
    rcases hcases a ha q hq x hx with ⟨-, -, rfl⟩ | hx
    · rw [hpmm]
      exact .inr ⟨hcu, hch, hcr⟩
    · exact .inl hx

end

theorem Trees.level_failed (h : Trees s R) (u : Flags) (h0 : s.allocFrame.1 = 0) :
    Levelled s s.allocFrame.2 R a t i u false := by
  have hkeep : ∀ f, s.pmm.used f = true ∨ f ≠ 0 →
      s.allocFrame.2.pmm.used f = s.pmm.used f ∧ s.allocFrame.2.pmm.refcount f = s.pmm.refcount f := by
    intro f hf
    have h0' : (pmmAllocFrame s.pmm).1 = 0 := h0
    show (pmmAllocFrame s.pmm).2.used f = s.pmm.used f ∧ (pmmAllocFrame s.pmm).2.refcount f = s.pmm.refcount f
    rcases pmmAllocFrame_cases s.pmm with ⟨g, -, hu, heq⟩ | ⟨-, heq⟩
    · rw [heq] at h0' ⊢
      have hne : f ≠ g := by
        rintro rfl
        rw [hu] at hf
        rcases hf with hf | hf
        · cases hf
        · exact hf h0'
      simp [Pmm.markUsed, hne]
    · rw [heq]
      exact ⟨rfl, rfl⟩
  have hmark : ∀ f, s.pmm.used f = true →
      s.allocFrame.2.pmm.used f = true ∧ s.allocFrame.2.pmm.refcount f = s.pmm.refcount f := fun f hf => by
    rw [(hkeep f (.inl hf)).1, (hkeep f (.inl hf)).2]
    exact ⟨hf, rfl⟩
  have hn : s.allocFrame.2.pmm.nframes = s.pmm.nframes := pmmAllocFrame_nframes s.pmm
  refine ⟨h.of_follow hn (fun _ _ _ _ => rfl) (fun x hx => (hmark x hx).1),
    ⟨fun _ _ _ _ _ hx => hx, fun _ _ _ _ _ => rfl, fun _ _ _ hx => .inl hx, hn, hmark, fun _ _ _ => rfl, rfl, ?_, ?_,
      fun _ _ => rfl⟩, fun _ _ _ => rfl, fun hc => (by cases hc), fun hc => (by cases hc), fun b _ q x j _ hx _ => .inr ⟨hx, rfl⟩,
    fun q x _ hx => .inl hx⟩
  · intro f hf
    by_cases hf0 : f = 0
    · exact .inr (.inl hf0)
    · rw [(hkeep f (.inr hf0)).1] at hf
      exact .inl hf
  · intro f hf
    by_cases hu : s.pmm.used f = true
    · rw [(hkeep f (.inl hu)).1, hu] at hf
      cases hf
    by_cases hf0 : f = 0
    · subst hf0
      show (pmmAllocFrame s.pmm).2.refcount 0 = _
      have hf' : (pmmAllocFrame s.pmm).2.used 0 = false := hf
      have h0' : (pmmAllocFrame s.pmm).1 = 0 := h0
      rcases pmmAllocFrame_cases s.pmm with ⟨g, -, -, heq⟩ | ⟨-, heq⟩
      · rw [heq] at hf' h0'
        obtain rfl : g = 0 := h0'
        simp [Pmm.markUsed] at hf'
      · rw [heq]
    · exact (hkeep f (.inr hf0)).2

/-- **One level of `vmm_map_page_into`**, whatever its outcome. -/
theorem ensureTable_levelled (h : Trees s R) (ha : a ∈ R) (hpi : WalkPath (p ++ [i])) (ht : follow s.child a p = some t)
    (u : Flags) : Levelled s (ensureTable s t i u).1 R a t i u (ensureTable s t i u).2 := by
  unfold ensureTable
  dsimp only
  split
  · exact h.level_present ha hpi ht u ‹_›
  · split
    · exact h.level_failed u ‹_›
    · exact h.level_missing ha hpi ht u ‹_› ‹_›

theorem Levelled.follow_snoc {s' : Vm} {u : Flags} (h : Levelled s s' R a t i u true) (ha : a ∈ R)
    (hpi : WalkPath (p ++ [i])) (ht : follow s.child a p = some t) :
    follow s'.child a (p ++ [i]) = some (s'.entry t i).frame := by
  rw [Radix.follow_snoc, h.grew.mono a ha p t hpi.of_append.tabPath ht, bind_some]
  exact child_eq_some.2 ⟨h.down rfl, rfl⟩

end Level

/-! ## A page -/

variable {a : Nat}

/-- **The levels down to a page table**, whatever their outcome. -/
theorem ensureTables_trees (ha : a ∈ R) (u : Flags) (rest p : List Nat) (s : Vm) (t : Nat)
    (h : Trees s R) (hp : WalkPath (p ++ rest)) (ht : follow s.child a p = some t) :
    let r := ensureTables u rest s t
    Trees r.1 R ∧ Grew s r.1 R a ∧ (∀ b ∈ R, ∀ v, r.1.leaf b v = s.leaf b v) ∧
    ∀ pt, r.2 = some pt → follow r.1.child a (p ++ rest) = some pt := by
  induction rest generalizing p s t with
  | nil =>
    refine ⟨h, Grew.refl s R a, fun _ _ _ => rfl, fun pt hpt => ?_⟩
    cases hpt
    rw [append_nil]
    exact ht
  | cons i rest ih =>
    have hsplit := append_cons p i rest
    have hpi : WalkPath (p ++ [i]) := WalkPath.of_append (hsplit ▸ hp)
    have hl := ensureTable_levelled h ha hpi ht u
    rw [ensureTables]
    cases he : ensureTable s t i u with | mk s1 ok =>
    rw [he] at hl
    cases ok with
    | false => exact ⟨hl.trees, hl.grew, hl.leaf, fun pt hpt => by cases hpt⟩
    | true =>
      obtain ⟨h1, h2, h3, h4⟩ := ih (p ++ [i]) s1 _ hl.trees (hsplit ▸ hp) (hl.follow_snoc ha hpi ht)
      refine ⟨h1, hl.grew.trans ha h2, fun b hb v => (h3 b hb v).trans (hl.leaf b hb v), fun pt hpt => ?_⟩
      rw [hsplit]
      exact h4 pt hpt

/-- **`vmm_map_page_into` on trees that share no table**: when it succeeds the leaf of the page is the new one and every
other leaf is as before, and when it fails every leaf is. -/
theorem vmmMapPageInto_trees (h : Trees s R) {va pa : Nat} (ha : a ∈ R)
    (hva : va / 4096 < userPages) (hpa : pa < 2 ^ 52) (fl : Flags) : let r := vmmMapPageInto s a va pa fl
    Trees r.1 R ∧ (r.2 = true → r.1.leaf a (va / 4096) = some ⟨pa, fl ||| PAGE_PRESENT⟩) ∧
    ∀ b ∈ R, ∀ w < userPages, (r.2 = true → ¬ (b = a ∧ w = va / 4096)) → r.1.leaf b w = s.leaf b w := by
  have hp : WalkPath ([] ++ [ix4 va, ix3 va, ix2 va]) := by
    rw [ix4_eq va hva, nil_append, ← ptPath_va]
    exact walkPath_ptPath _
  obtain ⟨htrees, -, hleaf, hdown⟩ := ensureTables_trees ha (fl &&& PAGE_USER) [ix4 va, ix3 va, ix2 va] [] s a h hp rfl
  unfold vmmMapPageInto
  cases he : ensureTables (fl &&& PAGE_USER) [ix4 va, ix3 va, ix2 va] s a with | mk s1 o =>
  rw [he] at htrees hleaf hdown
  cases o with
  | none => exact ⟨htrees, fun (hc : false = true) => (by cases hc), fun b hb w _ _ => hleaf b hb w⟩
  | some pt =>
    have hpt : follow s1.child a (ptPath (va / 4096)) = some pt := by
      rw [ptPath_va, ← ix4_eq va hva]
      exact hdown pt rfl
    have hpres : (⟨pa, fl ||| PAGE_PRESENT⟩ : Pte).present = true := by
      show hasFlag (fl ||| PAGE_PRESENT) PAGE_PRESENT = true
      rw [BitVec.or_comm]
      exact present_or _ fl (by decide)
    dsimp only
    rw [(ix_eq va).2.2]
    refine ⟨htrees.of_follow rfl (fun b hb q hq => htrees.follow_set ha hpt hb hq) (fun _ hx => hx),
      fun _ => htrees.leaf_set_self ha hpt hpa hpres, fun b hb w hw hout => ?_⟩
    rw [htrees.leaf_set_ne ha hva hpt hb hw (hout rfl)]
    exact hleaf b hb w

end Noxis
