import Noxis.Built
import Noxis.ElfReads
/-!
# ElfLoad — where the bytes of the segments end up

The loader maps a new frame at every page of a segment, whatever is mapped there, and a frame keeps what it held.  Segments
that share no byte may share a page, and then the later one takes the page away from the earlier one (`elf_load_right`).
`PagesHold s R a C` says that the pages in `C` are backed by frames of their own with these contents; `C` is followed through
every page mapped and every byte stored.
-/
namespace Noxis

open Option Function Radix Phdr Finset

/-! ## Mapping a page -/

section Map

variable {s : Vm} {R : List Nat} {a : Nat}

theorem ensureTable_idle (h : Trees s R) (ha : a ∈ R) {p : List Nat} {t i : Nat} (hpi : WalkPath (p ++ [i]))
    (ht : follow s.child a p = some t) (u : Flags) {f : Nat} (hf : (ensureTable s t i u).1.pmm.used f = false) :
    s.pmm.used f = false ∧ (ensureTable s t i u).1.mem f = s.mem f := by
  have hgrew := (ensureTable_levelled h ha hpi ht u).grew
  have hidle : s.pmm.used f = false := by
    cases hu : s.pmm.used f with
    | false => rfl
    | true => rw [(hgrew.held f hu).1] at hf; cases hf
  have hne : f ≠ t := by
    rintro rfl
    rw [h.used a ha p f hpi.of_append.tabPath ht] at hidle
    cases hidle
  refine ⟨hidle, ?_⟩
  unfold ensureTable at hf ⊢
  dsimp only at hf ⊢
  split
  · exact mem_setEntry_ne hne
  rename_i hpres
  rw [if_neg hpres] at hf
  split
  · rfl
  rename_i h0
  rw [if_neg h0] at hf
  have hfc : f ≠ s.allocFrame.1 := by
    rintro rfl
    have hu : s.allocFrame.2.pmm.used s.allocFrame.1 = true := (took_of_ne h0).heldNew.used
    exact absurd (hu.symm.trans hf) (by decide)
  exact (mem_setEntry_ne hne).trans (mem_setFrame_ne hfc)

theorem ensureTables_idle (ha : a ∈ R) (u : Flags) {f : Nat} (rest p : List Nat) (s : Vm) (t : Nat) (h : Trees s R)
    (hp : WalkPath (p ++ rest)) (ht : follow s.child a p = some t) (hf : (ensureTables u rest s t).1.pmm.used f = false) :
    s.pmm.used f = false ∧ (ensureTables u rest s t).1.mem f = s.mem f := by
  induction rest generalizing p s t with
  | nil => exact ⟨hf, rfl⟩
  | cons i rest ih =>
    have hsplit := List.append_cons p i rest
    have hpi : WalkPath (p ++ [i]) := WalkPath.of_append (hsplit ▸ hp)
    have hl := ensureTable_levelled h ha hpi ht u
    have hone := ensureTable_idle h ha hpi ht u (f := f)
    rw [ensureTables] at hf ⊢
    cases he : ensureTable s t i u with | mk s1 ok =>
    rw [he] at hl hone hf
    cases ok with
    | false => exact hone hf
    | true =>
      obtain ⟨h1, h2⟩ := ih (p ++ [i]) s1 _ hl.trees (hsplit ▸ hp) (hl.follow_snoc ha hpi ht) hf
      exact ⟨(hone h1).1, h2.trans (hone h1).2⟩

theorem ensureTables_some (ha : a ∈ R) (u : Flags) {x : Nat} (rest p : List Nat) (s : Vm) (t : Nat) (h : Trees s R)
    (hp : WalkPath (p ++ rest)) (ht : follow s.child a p = some t) (hx : follow s.child a (p ++ rest) = some x) :
    (ensureTables u rest s t).2 ≠ none := by
  induction rest generalizing p s t with
  | nil => exact some_ne_none _
  | cons i rest ih =>
    have hsplit := List.append_cons p i rest
    have hpi : WalkPath (p ++ [i]) := WalkPath.of_append (hsplit ▸ hp)
    have hl := ensureTable_levelled h ha hpi ht u
    have hpres : (s.entry t i).present = true := by
      have hpart : follow s.child a (p ++ [i]) ≠ none := fun hc => by
        rw [hsplit, Radix.follow_append, hc] at hx
        cases hx
      obtain ⟨y, hy⟩ := ne_none_iff_exists'.1 hpart
      rw [Radix.follow_snoc, ht, bind_some] at hy
      exact (child_eq_some.1 hy).1
    have hok : (ensureTable s t i u).2 = true := by
      unfold ensureTable
      dsimp only
      rw [if_pos hpres]
    rw [ensureTables]
    cases he : ensureTable s t i u with | mk s1 ok =>
    rw [he] at hl hok
    cases ok with
    | false => cases hok
    | true =>
      refine ih (p ++ [i]) s1 _ hl.trees (hsplit ▸ hp) (hl.follow_snoc ha hpi ht) ?_
      rw [← hsplit]
      exact hl.grew.mono a ha _ x hp.tabPath hx

structure MapKeeps (s s' : Vm) (R : List Nat) : Prop where
  used : ∀ f, s.pmm.used f = true → s'.pmm.used f = true
  -- frames that hold data
  data : ∀ f, s.pmm.used f = true → (∀ b ∈ R, ∀ p, TabPath p → follow s.child b p ≠ some f) →
    s'.mem f = s.mem f ∧ ∀ b ∈ R, ∀ p, TabPath p → follow s'.child b p ≠ some f
  idle : ∀ f, s'.pmm.used f = false → s.pmm.used f = false ∧ s'.mem f = s.mem f

theorem vmmMapPageInto_keeps (h : Trees s R) (ha : a ∈ R) {va : Nat} (hva : va / 4096 < userPages) (pa : Nat) (fl : Flags) :
    MapKeeps s (vmmMapPageInto s a va pa fl).1 R ∧
      ((vmmMapPageInto s a va pa fl).2 = false → s.leaf a (va / 4096) = none) := by
  have hpath : [ix4 va, ix3 va, ix2 va] = ptPath (va / 4096) := by rw [ix4_eq va hva, ptPath_va]
  have hp : WalkPath ([] ++ ptPath (va / 4096)) := walkPath_ptPath _
  set r := ptPath (va / 4096)
  set w := fl &&& PAGE_USER
  obtain ⟨htrees, hgrew, hleaf, hdown⟩ := ensureTables_trees ha w r [] s a h hp rfl
  have hidle := fun f => ensureTables_idle ha w (f := f) r [] s a h hp rfl
  have hsome := fun x => ensureTables_some ha w (x := x) r [] s a h hp rfl
  unfold vmmMapPageInto
  rw [hpath]
  cases he : ensureTables w r s a with | mk s1 o =>
  rw [he] at htrees hgrew hleaf hdown hidle hsome
  cases o with
  | none =>
    refine ⟨⟨fun f hf => (hgrew.held f hf).1, fun f hf hd => ⟨hgrew.mem f hf (hd a ha), hgrew.notTab hf hd⟩, hidle⟩, fun _ => ?_⟩
    cases hl : s.leaf a (va / 4096) with
    | none => rfl
    | some e =>
      obtain ⟨t, ht, -, -⟩ := leaf_eq_some.1 hl
      exact absurd rfl (hsome t ht)
  | some pt =>
    have hpt : follow s1.child a r = some pt := hdown pt rfl
    have hused : s1.pmm.used pt = true := htrees.used a ha _ pt (tabPath_ptPath _) hpt
    refine ⟨⟨fun f hf => (hgrew.held f hf).1, fun f hf hd => ⟨?_, fun b hb p htp hx => ?_⟩, fun f hf => ?_⟩, fun hc => by cases hc⟩
    · have hne : f ≠ pt := fun hc => hgrew.notTab hf hd a ha _ (tabPath_ptPath _) (hc ▸ hpt)
      exact (mem_setEntry_ne hne).trans (hgrew.mem f hf (hd a ha))
    · dsimp only at hx
      rw [(ix_eq va).2.2, htrees.follow_set ha hpt hb htp] at hx
      exact hgrew.notTab hf hd b hb p htp hx
    · have hne : f ≠ pt := by
        rintro rfl
        exact absurd (hused.symm.trans hf) (by decide)
      obtain ⟨h1, h2⟩ := hidle f hf
      exact ⟨h1, (mem_setEntry_ne hne).trans h2⟩

end Map

/-! ## The pages of the loader -/

structure PagesHold (s : Vm) (R : List Nat) (a : Nat) (C : Nat → Option (Nat → UInt8)) : Prop where
  trees : Trees s R
  page : ∀ v p, C v = some p → v < userPages ∧ s.page a v = some p
  data : ∀ v p e, C v = some p → s.leaf a v = some e → s.pmm.used e.frame = true ∧
    ∀ b ∈ R, ∀ q, TabPath q → follow s.child b q ≠ some e.frame
  apart : ∀ v w p q e g, C v = some p → C w = some q → s.leaf a v = some e → s.leaf a w = some g → e.frame = g.frame → v = w

theorem PagesHold.start {s : Vm} {R : List Nat} {a : Nat} (h : Trees s R) : PagesHold s R a (fun _ => none) :=
  ⟨h, fun _ _ hc => (by cases hc), fun _ _ _ hc => (by cases hc), fun _ _ _ _ _ _ hc => (by cases hc)⟩

/-- What one new page does to the pages of the loader: page `v` is new with contents `d`, or has no leaf. -/
structure NewPage (s s' : Vm) (R : List Nat) (a v : Nat) (C : Nat → Option (Nat → UInt8)) (d : Option (Nat → UInt8)) : Prop where
  loaded : PagesHold s' R a (update C v d)
  missing : d = none → C v = none ∧ s'.leaf a v = none
  junk : ∀ p, d = some p → ∃ f, s.pmm.used f = false ∧ p = s.mem f
  others : ∀ w < userPages, w ≠ v → s'.leaf a w = s.leaf a w
  idle : ∀ f, s'.pmm.used f = false → s.pmm.used f = false ∧ s'.mem f = s.mem f

section Pages

variable {s : Vm} {R : List Nat} {a v : Nat} {C : Nat → Option (Nat → UInt8)}

theorem PagesHold.leaf (h : PagesHold s R a C) {p : Nat → UInt8} (hp : C v = some p) :
    ∃ e, s.leaf a v = some e ∧ s.mem e.frame = p := by
  have hpage := (h.page v p hp).2
  unfold Vm.page at hpage
  exact map_eq_some_iff.1 hpage

theorem PagesHold.of_leaves (ht : Trees s R) (hpage : ∀ v p, C v = some p → v < userPages ∧ ∃ e, s.leaf a v = some e ∧
      s.mem e.frame = p ∧ s.pmm.used e.frame = true ∧ ∀ b ∈ R, ∀ q, TabPath q → follow s.child b q ≠ some e.frame)
    (hapart : ∀ v w p q e g, C v = some p → C w = some q → s.leaf a v = some e → s.leaf a w = some g → e.frame = g.frame → v = w) :
    PagesHold s R a C := by
  refine ⟨ht, fun v p hp => ?_, fun v p e hp hl => ?_, hapart⟩
  · obtain ⟨hv, e, hl, hm, -⟩ := hpage v p hp
    refine ⟨hv, ?_⟩
    unfold Vm.page
    rw [hl, map_some, hm]
  · obtain ⟨-, e', hl', -, hdata⟩ := hpage v p hp
    rw [hl] at hl'
    rw [some.inj hl']
    exact hdata

theorem PagesHold.mapNew (h : PagesHold s R a C) (ha : a ∈ R) (va : Nat) (hva : va / 4096 < userPages) (h0 : (mapNew s a va).2 ≠ 0) :
    ∃ d, NewPage s (mapNew s a va).1 R a (va / 4096) C d := by
  have hf0 : s.allocFrame.1 ≠ 0 := fun hc => h0 (by unfold Noxis.mapNew; simp only [if_pos hc])
  have heq : (Noxis.mapNew s a va).1 =
      (vmmMapPageInto s.allocFrame.2 a va s.allocFrame.1 (PAGE_RW ||| PAGE_USER)).1 := by
    unfold Noxis.mapNew
    simp only [if_neg hf0]
  have htook := took_of_ne hf0
  obtain ⟨ht1, hfollow⟩ := htook.trees h.trees
  have hfresh : ∀ b ∈ R, ∀ p, TabPath p → follow s.allocFrame.2.child b p ≠ some s.allocFrame.1 := fun b hb p hp hx => by
    rw [hfollow b hb p hp] at hx
    exact h.trees.fresh htook.unused b hb p hp hx
  have hlt : s.allocFrame.1 < 2 ^ 52 := by
    have h1 := htook.heldNew.lt
    have h2 := ht1.nframes
    unfold MAX_FRAMES at h2
    omega
  obtain ⟨htrees, hself, hother⟩ := vmmMapPageInto_trees ht1 ha hva hlt (PAGE_RW ||| PAGE_USER)
  obtain ⟨hkeep, hnone⟩ := vmmMapPageInto_keeps ht1 ha hva s.allocFrame.1 (PAGE_RW ||| PAGE_USER)
  rw [heq]
  generalize hr : vmmMapPageInto s.allocFrame.2 a va s.allocFrame.1 (PAGE_RW ||| PAGE_USER) = r at *
  have hused : ∀ f, s.pmm.used f = true → s.allocFrame.2.pmm.used f = true := fun f hf => by
    rw [(htook.pmm f (htook.ne hf)).1]
    exact hf
  have hidle : ∀ f, r.1.pmm.used f = false → s.pmm.used f = false ∧ r.1.mem f = s.mem f := fun f hf => by
    obtain ⟨h1, h2⟩ := hkeep.idle f hf
    refine ⟨?_, h2⟩
    cases hu : s.pmm.used f with
    | false => rfl
    | true => rw [hused f hu] at h1; cases h1
  -- a page other than the new one keeps its leaf, its frame and its contents
  have hold : ∀ w p, w ≠ va / 4096 → C w = some p → ∃ e, s.leaf a w = some e ∧ r.1.leaf a w = some e ∧ r.1.mem e.frame = p ∧
      r.1.pmm.used e.frame = true ∧ ∀ b ∈ R, ∀ q, TabPath q → follow r.1.child b q ≠ some e.frame := by
    intro w p hne hp
    obtain ⟨e, hl, hm⟩ := h.leaf hp
    obtain ⟨hu, hd⟩ := h.data w p e hp hl
    obtain ⟨hm', hd'⟩ := hkeep.data e.frame (hused _ hu) (fun b hb q hq => by rw [hfollow b hb q hq]; exact hd b hb q hq)
    refine ⟨e, hl, ?_, hm'.trans hm, hkeep.used _ (hused _ hu), hd'⟩
    rw [hother a ha w (h.page w p hp).1 (fun _ hc => hne hc.2)]
    exact hl
  have holdApart : ∀ w w' p q e g, w ≠ va / 4096 → w' ≠ va / 4096 → C w = some p → C w' = some q → r.1.leaf a w = some e →
      r.1.leaf a w' = some g → e.frame = g.frame → w = w' := by
    intro w w' p q e g hw hw' hp hq hl hg
    obtain ⟨e1, hl1, hl2, -⟩ := hold w p hw hp
    obtain ⟨g1, hg1, hg2, -⟩ := hold w' q hw' hq
    rw [hl2] at hl
    rw [hg2] at hg
    obtain rfl := some.inj hl
    obtain rfl := some.inj hg
    exact h.apart w w' p q _ _ hp hq hl1 hg1
  cases hok : r.2 with
  | false =>
    have hleaf : s.leaf a (va / 4096) = none := hnone hok
    have hc : C (va / 4096) = none := by
      cases hp : C (va / 4096) with
      | none => rfl
      | some p =>
        obtain ⟨e, hl, -⟩ := h.leaf hp
        rw [hleaf] at hl
        cases hl
    have hsame : update C (va / 4096) none = C := by
      rw [← hc]
      exact Function.update_eq_self _ _
    refine ⟨none, ?_, fun _ => ⟨hc, ?_⟩, fun p hp => (by cases hp), fun w hw hne => ?_, hidle⟩
    · rw [hsame]
      have hne : ∀ w p, C w = some p → w ≠ va / 4096 := fun w p hp hw => by
        rw [hw, hc] at hp
        cases hp
      refine PagesHold.of_leaves htrees (fun w p hp => ⟨(h.page w p hp).1, ?_⟩)
        (fun w w' p q e g hp hq => holdApart w w' p q e g (hne w p hp) (hne w' q hq) hp hq)
      obtain ⟨e, -, hl, hrest⟩ := hold w p (hne w p hp) hp
      exact ⟨e, hl, hrest⟩
    · exact (hother a ha _ hva (fun hc => by rw [hok] at hc; cases hc)).trans hleaf
    · exact hother a ha w hw (fun _ hc => hne hc.2)
  | true =>
    obtain ⟨hmem, hdata⟩ := hkeep.data s.allocFrame.1 htook.heldNew.used hfresh
    have hnew := hself hok
    refine ⟨some (s.mem s.allocFrame.1), ?_, fun hc => (by cases hc), fun p hp => ⟨_, htook.unused, (some.inj hp).symm⟩,
      fun w hw hne => hother a ha w hw (fun _ hc => hne hc.2), hidle⟩
    -- the frame of the new page is not that of an older one
    have hclash : ∀ w p e, w ≠ va / 4096 → C w = some p → r.1.leaf a w = some e → e.frame ≠ s.allocFrame.1 := by
      intro w p e hne hp hl
      obtain ⟨e', hl1, hl2, -⟩ := hold w p hne hp
      rw [hl2] at hl
      obtain rfl := some.inj hl
      exact htook.ne (h.data w p _ hp hl1).1
    refine PagesHold.of_leaves htrees (fun w p hp => ?_) (fun w w' p q e g hp hq hl hg heq => ?_)
    · by_cases hw : w = va / 4096
      · rw [hw, update_self] at hp
        rw [hw]
        exact ⟨hva, _, hnew, hmem.trans (some.inj hp), hkeep.used _ htook.heldNew.used, hdata⟩
      · rw [update_of_ne hw] at hp
        obtain ⟨e, -, hl, hrest⟩ := hold w p hw hp
        exact ⟨(h.page w p hp).1, e, hl, hrest⟩
    · by_cases hw : w = va / 4096
      · by_cases hw' : w' = va / 4096
        · rw [hw, hw']
        · rw [hw, hnew] at hl
          obtain rfl := some.inj hl
          rw [update_of_ne hw'] at hq
          exact absurd heq.symm (hclash w' q g hw' hq hg)
      · rw [update_of_ne hw] at hp
        by_cases hw' : w' = va / 4096
        · rw [hw', hnew] at hg
          obtain rfl := some.inj hg
          exact absurd heq (hclash w p e hw hp hl)
        · rw [update_of_ne hw'] at hq
          exact holdApart w w' p q e g hw hw' hp hq hl hg heq

/-- **A byte stored into a page of the loader.** -/
theorem PagesHold.setByte (h : PagesHold s R a C) (ha : a ∈ R) {p : Nat → UInt8} (hp : C v = some p) {e : Pte} (he : s.leaf a v = some e) (o : Nat)
    (x : UInt8) : PagesHold (s.setByte e.frame o x) R a (update C v (some (fun y => if y = o then x else p y))) ∧
      ∀ b ∈ R, ∀ w, (s.setByte e.frame o x).leaf b w = s.leaf b w := by
  obtain ⟨hused, hdata⟩ := h.data v p e hp he
  set r := s.setByte e.frame o x
  have hmt : ∀ b ∈ R, ∀ q t, TabPath q → follow s.child b q = some t → r.mem t = s.mem t :=
    fun b hb q t hq ht => mem_setFrame_ne (fun hc => hdata b hb q hq (hc ▸ ht))
  have hfollow : ∀ b ∈ R, ∀ q, TabPath q → follow r.child b q = follow s.child b q :=
    fun b hb q hq => Shape.follow_of_tabs hmt hb (tabPath_closed.inner hq)
  have hleaf : ∀ b ∈ R, ∀ w, r.leaf b w = s.leaf b w := fun b hb w => Shape.leaf_of_tabs hmt hb w
  refine ⟨PagesHold.of_leaves (h.trees.of_follow rfl hfollow (fun _ hu => hu)) (fun w q hq => ?_)
    (fun w w' q q' g g' hq hq' hl hl' heq => ?_), hleaf⟩
  · by_cases hw : w = v
    · rw [hw, update_self] at hq
      obtain ⟨e', hl, hm⟩ := h.leaf hp
      rw [he] at hl
      obtain rfl := some.inj hl
      rw [hw, hleaf a ha v]
      refine ⟨(h.page v p hp).1, e, he, ?_, hused, fun b hb t ht => by rw [hfollow b hb t ht]; exact hdata b hb t ht⟩
      rw [← some.inj hq, ← hm]
      exact mem_setFrame
    · rw [update_of_ne hw] at hq
      obtain ⟨g, hl, hm⟩ := h.leaf hq
      obtain ⟨hu, hd⟩ := h.data w q g hq hl
      rw [hleaf a ha w]
      refine ⟨(h.page w q hq).1, g, hl, ?_, hu, fun b hb t ht => by rw [hfollow b hb t ht]; exact hd b hb t ht⟩
      exact (mem_setFrame_ne (fun hc => hw (h.apart w v q p g e hq hp hl he hc))).trans hm
  · have hsome : ∀ w q, update C v (some (fun y => if y = o then x else p y)) w = some q → ∃ q', C w = some q' := by
      intro w q hq
      by_cases hw : w = v
      · exact ⟨p, hw ▸ hp⟩
      · rw [update_of_ne hw] at hq
        exact ⟨q, hq⟩
    obtain ⟨q1, h1⟩ := hsome w q hq
    obtain ⟨q2, h2⟩ := hsome w' q' hq'
    rw [hleaf a ha w] at hl
    rw [hleaf a ha w'] at hl'
    exact h.apart w w' q1 q2 g g' h1 h2 hl hl' heq

/-! ## A segment -/

/-- The pages from `lo` on, `n` of them, with the contents `D`, over those in `C`. -/
def overlay (C D : Nat → Option (Nat → UInt8)) (lo n v : Nat) : Option (Nat → UInt8) :=
  if lo ≤ v ∧ v < lo + n then D v else C v

/-- What mapping `n` pages from `lo` on does to the pages of the loader. -/
structure Remapped (s s' : Vm) (R : List Nat) (a lo n : Nat) (C D : Nat → Option (Nat → UInt8)) : Prop where
  loaded : PagesHold s' R a (overlay C D lo n)
  missing : ∀ v, lo ≤ v → v < lo + n → D v = none → C v = none ∧ s'.leaf a v = none
  junk : ∀ v p, lo ≤ v → v < lo + n → D v = some p → ∃ f, s.pmm.used f = false ∧ p = s.mem f
  idle : ∀ f, s'.pmm.used f = false → s.pmm.used f = false ∧ s'.mem f = s.mem f

theorem Remapped.snoc {s' s'' : Vm} {lo n : Nat} {D : Nat → Option (Nat → UInt8)} {d : Option (Nat → UInt8)}
    (hlo : lo + n < userPages) (h : Remapped s s' R a lo n C D) (hn : NewPage s' s'' R a (lo + n) (overlay C D lo n) d) :
    Remapped s s'' R a lo (n + 1) C (update D (lo + n) d) := by
  have hover : update (overlay C D lo n) (lo + n) d = overlay C (update D (lo + n) d) lo (n + 1) := by
    funext v
    unfold overlay
    by_cases hv : v = lo + n
    · rw [hv, update_self, update_self, if_pos (by omega)]
    · rw [update_of_ne hv, update_of_ne hv]
      exact if_congr (by omega) rfl rfl
  refine ⟨hover ▸ hn.loaded, fun v h1 h2 hd => ?_, fun v p h1 h2 hd => ?_, fun f hf => ?_⟩
  · by_cases hv : v = lo + n
    · rw [hv, update_self] at hd
      obtain ⟨hc, hl⟩ := hn.missing hd
      unfold overlay at hc
      rw [if_neg (by omega)] at hc
      exact ⟨hv ▸ hc, hv ▸ hl⟩
    · rw [update_of_ne hv] at hd
      obtain ⟨hc, hl⟩ := h.missing v h1 (by omega) hd
      exact ⟨hc, (hn.others v (by omega) hv).trans hl⟩
  · by_cases hv : v = lo + n
    · rw [hv, update_self] at hd
      obtain ⟨f, hf, hp⟩ := hn.junk p hd
      obtain ⟨h1, h2⟩ := h.idle f hf
      exact ⟨f, h1, hp.trans h2⟩
    · rw [update_of_ne hv] at hd
      exact h.junk v p h1 (by omega) hd
  · obtain ⟨h1, h2⟩ := hn.idle f hf
    exact ⟨(h.idle f h1).1, h2.trans (h.idle f h1).2⟩

/-- **The mapping loop of a segment that lies under `PML4[0]`.** -/
theorem PagesHold.loadPages (h : PagesHold s R a C) (ha : a ∈ R) {ph : Phdr} (hu : ph.vaddr + ph.memsz ≤ 2 ^ 39)
    (hok : (loadPages a ph s).2 = true) :
    ∃ D, Remapped s (loadPages a ph s).1 R a (ph.vstart / 4096) ((ph.vend - ph.vstart) / 4096) C D := by
  have hover : overlay C (fun _ => none) (ph.vstart / 4096) 0 = C := by
    funext v
    unfold overlay
    rw [if_neg (by omega)]
  refine (forUpTo_inv _ (fun j s' => ∃ D, Remapped s s' R a (ph.vstart / 4096) j C D) (fun _ => True) _ s
    ⟨fun _ => none, hover.symm ▸ h, fun _ _ _ => by omega, fun _ _ _ _ => by omega, fun f hf => ⟨hf, rfl⟩⟩
    (fun j s' hj hs => ⟨fun hturn => ?_, fun _ => trivial⟩)).1 hok
  obtain ⟨D, hs⟩ := hs
  have hpage : (ph.vstart + 4096 * j) / 4096 = ph.vstart / 4096 + j := by
    unfold vstart
    omega
  have hlt : ph.vstart / 4096 + j < userPages := by
    unfold vend vstart at hj
    unfold vstart userPages
    omega
  obtain ⟨d, hd⟩ := hs.loaded.mapNew ha (ph.vstart + 4096 * j) (by rw [hpage]; exact hlt) (by simpa using hturn)
  rw [hpage] at hd
  exact ⟨_, hs.snoc hlt hd⟩

def segByte (img : Image) (ph : Phdr) (b : Nat) : UInt8 := if b < ph.filesz then img (ph.offset + b) else 0

/-- Page `v` with the first `m` bytes of a segment copied over `p`. -/
def stamp (img : Image) (ph : Phdr) (m v : Nat) (p : Nat → UInt8) : Nat → UInt8 := fun o =>
  if o < 4096 ∧ ph.vaddr ≤ 4096 * v + o ∧ 4096 * v + o < ph.vaddr + m then segByte img ph (4096 * v + o - ph.vaddr) else p o

theorem stamp_succ_self (img : Image) (ph : Phdr) (b : Nat) (p : Nat → UInt8) :
    stamp img ph (b + 1) ((ph.vaddr + b) / 4096) p = fun y => if y = (ph.vaddr + b) % 4096 then segByte img ph b
      else stamp img ph b ((ph.vaddr + b) / 4096) p y := by
  funext y
  unfold stamp
  by_cases hy : y = (ph.vaddr + b) % 4096
  · rw [if_pos hy, if_pos (by omega)]
    congr 1
    omega
  · rw [if_neg hy]
    exact if_congr (by omega) rfl rfl

theorem stamp_succ_of_ne (img : Image) (ph : Phdr) {b w : Nat} (hw : w ≠ (ph.vaddr + b) / 4096) (p : Nat → UInt8) :
    stamp img ph (b + 1) w p = stamp img ph b w p := by
  funext y
  unfold stamp
  exact if_congr (by omega) rfl rfl

/-- **The copy loop of a segment that lies under `PML4[0]`.** -/
theorem PagesHold.loadBytes (h : PagesHold s R a C) (ha : a ∈ R) {img : Image} {ph : Phdr} (hu : ph.vaddr + ph.memsz ≤ 2 ^ 39)
    (hmiss : ∀ b < ph.memsz, C ((ph.vaddr + b) / 4096) = none → s.leaf a ((ph.vaddr + b) / 4096) = none)
    (hok : (loadBytes img a ph s).2 = true) :
    PagesHold (loadBytes img a ph s).1 R a (fun v => (C v).map (stamp img ph ph.memsz v)) ∧
      (∀ b < ph.memsz, C ((ph.vaddr + b) / 4096) ≠ none) ∧
      ∀ f, (loadBytes img a ph s).1.pmm.used f = false → s.pmm.used f = false ∧ (loadBytes img a ph s).1.mem f = s.mem f := by
  have hstart : (fun v => (C v).map (stamp img ph 0 v)) = C := by
    funext v
    have hid : stamp img ph 0 v = id := by
      funext p o
      unfold stamp
      rw [if_neg (by omega)]
      rfl
    rw [hid, map_id, id]
  have hall := (forUpTo_inv (loadByte img a ph) (fun m s' => PagesHold s' R a (fun v => (C v).map (stamp img ph m v)) ∧
      (∀ b < m, C ((ph.vaddr + b) / 4096) ≠ none) ∧ (∀ w, s'.leaf a w = s.leaf a w) ∧
      ∀ f, s'.pmm.used f = false → s.pmm.used f = false ∧ s'.mem f = s.mem f) (fun _ => True) ph.memsz s
    ⟨hstart.symm ▸ h, fun _ hb => absurd hb (Nat.not_lt_zero _), fun _ => rfl, fun f hf => ⟨hf, rfl⟩⟩
    (fun b s' hb hs => ⟨fun hturn => ?_, fun _ => trivial⟩)).1 hok
  · exact ⟨hall.1, hall.2.1, hall.2.2.2⟩
  obtain ⟨hl, hpages, hleaf, hidle⟩ := hs
  have hva : (ph.vaddr + b) / 4096 < userPages := by
    unfold userPages
    omega
  unfold loadByte at hturn ⊢
  dsimp only at hturn ⊢
  rw [Nat.mod_eq_of_lt (by omega)] at hturn ⊢
  by_cases h0 : vaToPhys s' a (ph.vaddr + b) = 0
  · rw [if_pos h0] at hturn
    cases hturn
  rw [if_neg h0]
  dsimp only
  obtain ⟨e, he, hstore⟩ := storePhys_eq hva h0 (if b < ph.filesz then img (ph.offset + b) else 0)
  rw [hstore]
  cases hp : C ((ph.vaddr + b) / 4096) with
  | none =>
    rw [hleaf, hmiss b hb hp] at he
    cases he
  | some p =>
    have hstamp : (C ((ph.vaddr + b) / 4096)).map (stamp img ph b ((ph.vaddr + b) / 4096)) =
        some (stamp img ph b ((ph.vaddr + b) / 4096) p) := by rw [hp, map_some]
    obtain ⟨hl', hleaf'⟩ := hl.setByte ha hstamp he ((ph.vaddr + b) % 4096) (segByte img ph b)
    have hnew : update (fun v => (C v).map (stamp img ph b v)) ((ph.vaddr + b) / 4096)
        (some (fun y => if y = (ph.vaddr + b) % 4096 then segByte img ph b else stamp img ph b ((ph.vaddr + b) / 4096) p y)) =
        fun v => (C v).map (stamp img ph (b + 1) v) := by
      funext w
      by_cases hw : w = (ph.vaddr + b) / 4096
      · rw [hw, update_self, hp, map_some, stamp_succ_self]
      · rw [update_of_ne hw]
        cases C w with
        | none => rfl
        | some q => rw [map_some, map_some, stamp_succ_of_ne img ph hw]
    rw [hnew] at hl'
    refine ⟨hl', fun b' hb' => ?_, fun w => (hleaf' a ha w).trans (hleaf w), fun f hf => ?_⟩
    · rcases Nat.lt_succ_iff_lt_or_eq.1 hb' with hlt | rfl
      · exact hpages b' hlt
      · rw [hp]
        exact some_ne_none p
    · have hfree : s'.pmm.used f = false := hf
      have hne : f ≠ e.frame := by
        rintro rfl
        rw [(hl.data _ _ e hstamp he).1] at hfree
        cases hfree
      obtain ⟨h1, h2⟩ := hidle f hfree
      exact ⟨h1, (mem_setFrame_ne hne).trans h2⟩

def Phdr.Maps (ph : Phdr) (v : Nat) : Prop := ph.ptype = PT_LOAD ∧ ph.vstart / 4096 ≤ v ∧ v < ph.vend / 4096

theorem Phdr.maps_byte {ph : Phdr} (hload : ph.ptype = PT_LOAD) (hu : ph.vaddr + ph.memsz ≤ 2 ^ 39) {b : Nat} (hb : b < ph.memsz) :
    ph.Maps ((ph.vaddr + b) / 4096) := by
  refine ⟨hload, ?_, ?_⟩
  · unfold vstart
    omega
  · unfold vend
    omega

/-- What a turn of the loader does: pages it does not map stay, its own bytes are in place, and the rest of its pages holds
what the frames held before. -/
structure Turned (s s' : Vm) (R : List Nat) (a : Nat) (img : Image) (ph : Phdr) (C C' : Nat → Option (Nat → UInt8)) : Prop where
  loaded : PagesHold s' R a C'
  outside : ∀ v, ¬ ph.Maps v → C' v = C v
  still : ∀ v, C v ≠ none → C' v ≠ none
  bytes : ph.ptype = PT_LOAD → ∀ b < ph.memsz, ∃ p, C' ((ph.vaddr + b) / 4096) = some p ∧
    p ((ph.vaddr + b) % 4096) = segByte img ph b
  junk : ∀ v p o, ph.Maps v → C' v = some p → ¬ (ph.vaddr ≤ 4096 * v + o ∧ 4096 * v + o < ph.vaddr + ph.memsz) →
    ∃ f, s.pmm.used f = false ∧ p o = s.mem f o
  idle : ∀ f, s'.pmm.used f = false → s.pmm.used f = false ∧ s'.mem f = s.mem f

/-- **A turn of the loader**, for a segment that lies under `PML4[0]`. -/
theorem PagesHold.loadSegment (h : PagesHold s R a C) (ha : a ∈ R) {img : Image} {ph : Phdr}
    (hu : ph.ptype = PT_LOAD → ph.vaddr + ph.memsz ≤ 2 ^ 39) (hok : (loadSegment img a ph s).2 = true) :
    ∃ C', Turned s (loadSegment img a ph s).1 R a img ph C C' := by
  unfold Noxis.loadSegment at hok ⊢
  by_cases hload : ph.ptype = PT_LOAD
  swap
  · rw [if_pos hload]
    exact ⟨C, h, fun _ _ => rfl, fun _ hc => hc, fun hc => absurd hc hload, fun _ _ _ hm => absurd hm.1 hload, fun f hf => ⟨hf, rfl⟩⟩
  have hle := hu hload
  rw [if_neg (not_not.2 hload)] at hok ⊢
  have hpages := h.loadPages ha hle
  cases hp : Noxis.loadPages a ph s with | mk s1 ok =>
  rw [hp] at hok hpages
  cases ok with
  | false => cases hok
  | true =>
    obtain ⟨D, hD⟩ := hpages rfl
    dsimp only at hok hD ⊢
    have hend : ph.vstart / 4096 + (ph.vend - ph.vstart) / 4096 = ph.vend / 4096 := by
      unfold vend vstart
      omega
    have hin : ∀ v, ph.Maps v → overlay C D (ph.vstart / 4096) ((ph.vend - ph.vstart) / 4096) v = D v := fun v hv => by
      unfold overlay
      rw [hend, if_pos hv.2]
    have hout : ∀ v, ¬ ph.Maps v → overlay C D (ph.vstart / 4096) ((ph.vend - ph.vstart) / 4096) v = C v := fun v hv => by
      unfold overlay
      rw [hend, if_neg (fun hc => hv ⟨hload, hc⟩)]
    have hmissing : ∀ v, ph.Maps v → D v = none → C v = none ∧ s1.leaf a v = none := fun v hv =>
      hD.missing v hv.2.1 (by rw [hend]; exact hv.2.2)
    obtain ⟨hl, hsome, hidle⟩ := hD.loaded.loadBytes ha hle (fun b hb hc => by
      have hm := maps_byte hload hle hb
      rw [hin _ hm] at hc
      exact (hmissing _ hm hc).2) hok
    refine ⟨_, hl, fun v hv => ?_, fun v hv => ?_, fun _ b hb => ?_, fun v p o hv hp hno => ?_, fun f hf => ?_⟩
    · -- no byte of the segment lies on a page that it does not map
      rw [hout v hv]
      have hid : ∀ p, stamp img ph ph.memsz v p = p := fun p => by
        funext o
        unfold stamp
        rw [if_neg]
        rintro ⟨ho, h1, h2⟩
        have hm := maps_byte hload hle (b := 4096 * v + o - ph.vaddr) (by omega)
        rw [show (ph.vaddr + (4096 * v + o - ph.vaddr)) / 4096 = v by omega] at hm
        exact hv hm
      cases C v with
      | none => rfl
      | some p => rw [map_some, hid]
    · rw [ne_eq, map_eq_none_iff]
      by_cases hm : ph.Maps v
      · rw [hin v hm]
        exact fun hc => hv (hmissing v hm hc).1
      · rw [hout v hm]
        exact hv
    · obtain ⟨p, hp⟩ := ne_none_iff_exists'.1 (hsome b hb)
      refine ⟨_, by rw [hp, map_some], ?_⟩
      unfold stamp
      rw [if_pos (by omega), show 4096 * ((ph.vaddr + b) / 4096) + (ph.vaddr + b) % 4096 - ph.vaddr = b by omega]
    · rw [hin v hv] at hp
      obtain ⟨q, hq, rfl⟩ := map_eq_some_iff.1 hp
      obtain ⟨f, hf, rfl⟩ := hD.junk v q hv.2.1 (by rw [hend]; exact hv.2.2) hq
      refine ⟨f, hf, ?_⟩
      unfold stamp
      rw [if_neg (fun hc => hno hc.2)]
    · obtain ⟨h1, h2⟩ := hidle f hf
      exact ⟨(hD.idle f h1).1, h2.trans (hD.idle f h1).2⟩

end Pages

/-! ## The whole image -/

def SegmentsApart (img : Image) : Prop := ∀ i j, i < j → j < ePhnum img → (phdr img i).ptype = PT_LOAD → (phdr img j).ptype = PT_LOAD →
  (phdr img i).vaddr + (phdr img i).memsz ≤ (phdr img j).vaddr ∨ (phdr img j).vaddr + (phdr img j).memsz ≤ (phdr img i).vaddr ∨
    (phdr img i).memsz = 0 ∨ (phdr img j).memsz = 0

/-- Byte `b` of segment `i` lies on a page that one of the headers behind it, below `n`, maps again. -/
def Taken (img : Image) (n i b : Nat) : Prop := ∃ j, i < j ∧ j < n ∧ (phdr img j).Maps (((phdr img i).vaddr + b) / 4096)

def Vm.mappedByte (s : Vm) (a va : Nat) : Option UInt8 := (s.page a (va / 4096)).map (fun p => p (va % 4096))

def highestEnd (img : Image) : Nat :=
  (Finset.range (ePhnum img)).sup fun i => if (phdr img i).ptype = PT_LOAD then (phdr img i).vaddr + (phdr img i).memsz else 0

/-- When `elf64_load_into` answers an entry point, every byte of every segment is in place and the break is the end of the
highest segment, rounded up to a page. -/
structure LoadsRight (s : Vm) (a : Nat) (img : Image) : Prop where
  bytes : (elf64LoadInto s a img).2.1 ≠ 0 → ∀ i < ePhnum img, (phdr img i).ptype = PT_LOAD → ∀ b < (phdr img i).memsz,
    (elf64LoadInto s a img).1.mappedByte a ((phdr img i).vaddr + b) = some (segByte img (phdr img i) b)
  brk : (elf64LoadInto s a img).2.1 ≠ 0 → (elf64LoadInto s a img).2.2 = (highestEnd img + 4095) / 4096 * 4096

/-- The bytes of the first `n` segments: those whose page was not taken are in place, the others are what some free frame
held. -/
structure Placed (s s' : Vm) (R : List Nat) (a : Nat) (img : Image) (n : Nat) (C : Nat → Option (Nat → UInt8)) : Prop where
  loaded : PagesHold s' R a C
  idle : ∀ f, s'.pmm.used f = false → s.pmm.used f = false ∧ s'.mem f = s.mem f
  bytes : ∀ i < n, (phdr img i).ptype = PT_LOAD → ∀ b < (phdr img i).memsz, ∃ p,
    C (((phdr img i).vaddr + b) / 4096) = some p ∧
    (¬ Taken img n i b → p (((phdr img i).vaddr + b) % 4096) = segByte img (phdr img i) b) ∧
    (Taken img n i b → ∃ f, s.pmm.used f = false ∧ p (((phdr img i).vaddr + b) % 4096) = s.mem f (((phdr img i).vaddr + b) % 4096))

section Image

variable {s : Vm} {R : List Nat} {a : Nat} {img : Image}

theorem Taken.succ_iff {n i b : Nat} (hi : i < n) : Taken img (n + 1) i b ↔
    Taken img n i b ∨ (phdr img n).Maps (((phdr img i).vaddr + b) / 4096) := by
  constructor
  · rintro ⟨j, h1, h2, h3⟩
    rcases Nat.lt_succ_iff_lt_or_eq.1 h2 with hlt | rfl
    · exact .inl ⟨j, h1, hlt, h3⟩
    · exact .inr h3
  · rintro (⟨j, h1, h2, h3⟩ | h)
    · exact ⟨j, h1, Nat.lt_succ_of_lt h2, h3⟩
    · exact ⟨n, hi, Nat.lt_succ_self n, h⟩

theorem Placed.turn {s' s'' : Vm} {n : Nat} {C C' : Nat → Option (Nat → UInt8)} (hap : SegmentsApart img) (hn : n < ePhnum img)
    (h : Placed s s' R a img n C) (ht : Turned s' s'' R a img (phdr img n) C C') : Placed s s'' R a img (n + 1) C' := by
  refine ⟨ht.loaded, fun f hf => ?_, fun i hi hload b hb => ?_⟩
  · obtain ⟨h1, h2⟩ := ht.idle f hf
    exact ⟨(h.idle f h1).1, h2.trans (h.idle f h1).2⟩
  rcases Nat.lt_succ_iff_lt_or_eq.1 hi with hlt | rfl
  · rw [Taken.succ_iff hlt]
    obtain ⟨p, hp, hkept, hlost⟩ := h.bytes i hlt hload b hb
    by_cases hm : (phdr img n).Maps (((phdr img i).vaddr + b) / 4096)
    · -- the page is taken, and the byte is none of the segment that took it
      obtain ⟨q, hq⟩ := ne_none_iff_exists'.1 (ht.still _ (by rw [hp]; exact some_ne_none p))
      refine ⟨q, hq, fun hc => absurd (.inr hm) hc, fun _ => ?_⟩
      obtain ⟨f, hf, hval⟩ := ht.junk _ q (((phdr img i).vaddr + b) % 4096) hm hq (fun hc => by
        have := hap i n hlt hn hload hm.1
        omega)
      obtain ⟨h1, h2⟩ := h.idle f hf
      exact ⟨f, h1, by rw [hval, h2]⟩
    · refine ⟨p, (ht.outside _ hm).trans hp, fun hc => hkept (fun hx => hc (.inl hx)), fun hc => hlost (hc.resolve_right hm)⟩
  · obtain ⟨p, hp, hval⟩ := ht.bytes hload b hb
    refine ⟨p, hp, fun _ => hval, fun hc => ?_⟩
    obtain ⟨j, h1, h2, -⟩ := hc
    omega

theorem elf64LoadInto_placed (ht : Trees s R) (ha : a ∈ R) (hu : Under img) (hap : SegmentsApart img)
    (hentry : (elf64LoadInto s a img).2.1 ≠ 0) : ∃ C, Placed s (elf64LoadInto s a img).1 R a img (ePhnum img) C := by
  obtain ⟨hok, hall⟩ := elf64LoadInto_entry hentry
  have hrun := (forUpTo_inv (fun i s => loadSegment img a (phdr img i) s) (fun n s' => n ≤ ePhnum img → ∃ C, Placed s s' R a img n C)
    (fun _ => True) (ePhnum img) s
    (fun _ => ⟨fun _ => none, PagesHold.start ht, fun f hf => ⟨hf, rfl⟩, fun i hi => absurd hi (Nat.not_lt_zero i)⟩)
    (fun n s' hn hs => ⟨fun hturn _ => ?_, fun _ => trivial⟩)).1 hall (le_refl _)
  · have hend : (elf64LoadInto s a img).1 = (forUpTo (fun i s => loadSegment img a (phdr img i) s) (ePhnum img) s).1 := by
      unfold elf64LoadInto
      rw [hok, Bool.not_true, if_neg (by decide)]
      split <;> rename_i heq <;> rw [heq]
    rw [hend]
    exact hrun
  · obtain ⟨C, hC⟩ := hs (le_of_lt hn)
    obtain ⟨C', hT⟩ := hC.loaded.loadSegment ha (hu n hn) hturn
    exact ⟨C', hC.turn hap hn hT⟩

theorem loadEnd_eq : ∀ {n : Nat}, (∀ i < n, (phdr img i).ptype = PT_LOAD → (phdr img i).vaddr + (phdr img i).memsz ≤ 2 ^ 39) →
    loadEnd img n = ((range n).sup (fun i => if (phdr img i).ptype = PT_LOAD then (phdr img i).vaddr + (phdr img i).memsz
      else 0) + 4095) / 4096 * 4096
  | 0, _ => by
    rw [range_zero, sup_empty]
    rfl
  | n + 1, h => by
    rw [loadEnd, loadEnd_eq (fun i hi => h i (Nat.lt_succ_of_lt hi)), range_add_one, sup_insert]
    have hle := h n (Nat.lt_succ_self n)
    generalize (range n).sup (fun i => if (phdr img i).ptype = PT_LOAD then (phdr img i).vaddr + (phdr img i).memsz
      else 0) = top
    by_cases hload : (phdr img n).ptype = PT_LOAD
    · have := hle hload
      rw [if_pos hload, if_pos hload]
      unfold vend
      omega
    · rw [if_neg hload, if_neg hload]
      omega

/-- **Where the bytes of the segments end up.**  They are in place if no header maps again a page that holds a byte of an
earlier segment.  Where one does, the byte is what the free frames held: with `c` in all of them the load is right exactly if
every such byte is `c` anyway. -/
theorem elf_load_right (s : Vm) (R : List Nat) (ht : Trees s R) (a : Nat) (ha : a ∈ R) (img : Image) (hu : Under img)
    (hap : SegmentsApart img) :
    ((∀ i < ePhnum img, (phdr img i).ptype = PT_LOAD → ∀ b < (phdr img i).memsz, ¬ Taken img (ePhnum img) i b) →
      LoadsRight s a img) ∧ ∀ c, (∀ f, s.pmm.used f = false → ∀ o < 4096, s.mem f o = c) → (elf64LoadInto s a img).2.1 ≠ 0 →
      (LoadsRight s a img ↔ ∀ i < ePhnum img, (phdr img i).ptype = PT_LOAD → ∀ b < (phdr img i).memsz,
        Taken img (ePhnum img) i b → segByte img (phdr img i) b = c) := by
  set r := elf64LoadInto s a img
  have hbrk : r.2.1 ≠ 0 → r.2.2 = (highestEnd img + 4095) / 4096 * 4096 := fun h => by
    rw [elf64LoadInto_brk img h]
    exact loadEnd_eq hu
  -- the byte at an address is the byte of the page
  have hbyte : ∀ {C : Nat → Option (Nat → UInt8)} {va : Nat} {p : Nat → UInt8}, PagesHold r.1 R a C →
      C (va / 4096) = some p → r.1.mappedByte a va = some (p (va % 4096)) := fun {C va p} hl hp => by
    unfold Vm.mappedByte
    rw [(hl.page _ p hp).2, map_some]
  constructor
  · intro hfree
    refine ⟨fun hentry i hi hload b hb => ?_, hbrk⟩
    obtain ⟨C, hC⟩ := elf64LoadInto_placed ht ha hu hap hentry
    obtain ⟨p, hp, hkept, -⟩ := hC.bytes i hi hload b hb
    rw [hbyte hC.loaded hp, hkept (hfree i hi hload b hb)]
  · intro c hc hentry
    obtain ⟨C, hC⟩ := elf64LoadInto_placed ht ha hu hap hentry
    have hlost : ∀ i < ePhnum img, (phdr img i).ptype = PT_LOAD → ∀ b < (phdr img i).memsz, Taken img (ePhnum img) i b →
        r.1.mappedByte a ((phdr img i).vaddr + b) = some c := by
      intro i hi hload b hb htaken
      obtain ⟨p, hp, -, hjunk⟩ := hC.bytes i hi hload b hb
      obtain ⟨f, hf, hval⟩ := hjunk htaken
      rw [hbyte hC.loaded hp, hval, hc f hf _ (Nat.mod_lt _ (by decide))]
    constructor
    · intro h i hi hload b hb htaken
      have hright := h.bytes hentry i hi hload b hb
      rw [hlost i hi hload b hb htaken] at hright
      exact (some.inj hright).symm
    · intro h
      refine ⟨fun _ i hi hload b hb => ?_, hbrk⟩
      by_cases htaken : Taken img (ePhnum img) i b
      · rw [hlost i hi hload b hb htaken, h i hi hload b hb htaken]
      · obtain ⟨p, hp, hkept, -⟩ := hC.bytes i hi hload b hb
        rw [hbyte hC.loaded hp, hkept htaken]

end Image

/-- Two segments of four bytes: 1, 2, 3, 4 at 0x400000, and 5, 6, 7, 8 at 0x400000 plus the two bytes given. -/
def twoSegments (lo hi : UInt8) : Image := fun x =>
  ([0x7F, 0x45, 0x4C, 0x46, 2] ++ List.replicate 19 0 ++ [0, 0, 0x40, 0, 0, 0, 0, 0] ++ [64] ++ List.replicate 23 0 ++ [2] ++
    List.replicate 7 0 ++ [1] ++ List.replicate 7 0 ++ [176] ++ List.replicate 7 0 ++ [0, 0, 0x40, 0, 0, 0, 0, 0] ++
    List.replicate 8 0 ++ [4] ++ List.replicate 7 0 ++ [4] ++ List.replicate 15 0 ++ [1] ++ List.replicate 7 0 ++ [180] ++
    List.replicate 7 0 ++ [lo, hi, 0x40, 0, 0, 0, 0, 0] ++ List.replicate 8 0 ++ [4] ++ List.replicate 7 0 ++ [4] ++
    List.replicate 15 0 ++ [1, 2, 3, 4, 5, 6, 7, 8]).getD x 0

theorem smallKernel_trees : Trees smallKernel.vm [1] :=
  (Built.create (.start (by decide)) (by decide +kernel) : Built smallKernel.vm [1]).trees

/-- The second segment is two pages further on. -/
theorem elf_load_right_apart : LoadsRight smallKernel.vm 1 (twoSegments 0 32) ∧
    (elf64LoadInto smallKernel.vm 1 (twoSegments 0 32)).2.1 = 0x400000 := by
  set r := twoSegments 0 32
  have hnum : ePhnum r = 2 := by decide +kernel
  have hva0 : (phdr r 0).vaddr = 0x400000 := by decide +kernel
  have hva1 : (phdr r 1).vaddr = 0x402000 := by decide +kernel
  have hsize : ∀ i < 2, (phdr r i).memsz = 4 := by decide +kernel
  have hpair : ∀ i j, i < j → j < ePhnum r → i = 0 ∧ j = 1 := fun i j h1 h2 => by omega
  have hunder : Under r := by
    intro i hi _
    rw [hnum] at hi
    rw [hsize i hi]
    have hcases : i = 0 ∨ i = 1 := by omega
    rcases hcases with rfl | rfl
    · rw [hva0]
      decide
    · rw [hva1]
      decide
  have hapart : SegmentsApart r := by
    intro i j h1 h2 _ _
    obtain ⟨rfl, rfl⟩ := hpair i j h1 h2
    rw [hva0, hva1, hsize 0 (by decide)]
    exact .inl (by decide)
  refine ⟨(elf_load_right smallKernel.vm [1] smallKernel_trees 1 (by decide) r hunder hapart).1 ?_, by decide +kernel⟩
  rintro i - - b hb ⟨j, h1, h2, -, hlo, -⟩
  obtain ⟨rfl, rfl⟩ := hpair i j h1 h2
  rw [hsize 0 (by decide)] at hb
  unfold vstart at hlo
  omega

/-- **Two segments on one page**: the second one takes the page, and the bytes of the first are gone. -/
theorem elf_load_loses_page : SegmentsApart (twoSegments 16 0) ∧ Under (twoSegments 16 0) ∧
    (elf64LoadInto smallKernel.vm 1 (twoSegments 16 0)).2.1 = 0x400000 ∧
    (elf64LoadInto smallKernel.vm 1 (twoSegments 16 0)).1.mappedByte 1 0x400000 = some 0 ∧
    ¬ LoadsRight smallKernel.vm 1 (twoSegments 16 0) := by
  set r := twoSegments 16 0
  have hentry : (elf64LoadInto smallKernel.vm 1 r).2.1 = 0x400000 := by decide +kernel
  have hbyte : (elf64LoadInto smallKernel.vm 1 r).1.mappedByte 1 0x400000 = some 0 := by decide +kernel
  have hnum : ePhnum r = 2 := by decide +kernel
  refine ⟨?_, ?_, hentry, hbyte, fun h => ?_⟩
  · intro i j h1 h2 _ _
    obtain ⟨rfl, rfl⟩ : i = 0 ∧ j = 1 := by omega
    exact .inl (by decide +kernel)
  · unfold Under
    rw [hnum]
    decide +kernel
  · have hright := h.bytes (by rw [hentry]; decide) 0 (by rw [hnum]; decide) (by decide +kernel) 0 (by decide +kernel)
    rw [show (phdr r 0).vaddr + 0 = 0x400000 by decide +kernel, hbyte] at hright
    exact absurd hright (by decide +kernel)

end Noxis
