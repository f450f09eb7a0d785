import Noxis.Trees
/-!
# VmMap — what mapping a page and creating an address space do to the forest

`Shape.set_leaf` stores one leaf entry.  `ensureTable_spec` links at most one fresh table.  `vmmMapPageInto_mapped` puts
three of the second and one of the first together: only the leaf of the page mapped changes, in the address space it is
mapped into.  `Grew` is what the table levels may change on the way.
-/
namespace Noxis

open List Option Radix BitVec

namespace Shape

variable {s : Vm} {R : List Nat}

/-- **Storing a leaf entry** of page `v` in `a` changes that leaf and no path to a table. -/
theorem set_leaf (h : Shape s R) {a v pt : Nat} (ha : a ∈ R) (hv : v < userPages)
    (hpt : follow s.child a (ptPath v) = some pt) (e : Pte) (hpres : e.present = true)
    (hflags : e.user = true ∧ e.rw = !e.cow) (hheld : s.pmm.Held e.frame)
    (htab : ∀ b ∈ R, ∀ p, TabPath p → follow s.child b p ≠ some e.frame) (hkern : e.frame ≠ s.kpml4)
    (hinj : ∀ w < userPages, w ≠ v → ∀ e', s.leaf a w = some e' → e'.frame ≠ e.frame)
    (hex : ∀ b ∈ R, ∀ w < userPages, ¬ (b = a ∧ w = v) → ∀ e', s.leaf b w = some e' → e'.frame = e.frame →
      e.rw = false ∧ e'.rw = false) :
    let g := s.setEntry pt (v % 512) e
    Shape g R ∧ g.leaf a v = some e ∧ (∀ b ∈ R, ∀ w < userPages, ¬ (b = a ∧ w = v) → g.leaf b w = s.leaf b w) ∧
    (∀ b ∈ R, ∀ p, TabPath p → follow g.child b p = follow s.child b p) := by
  set u := s.setEntry pt (v % 512) e
  have hf : ∀ b ∈ R, ∀ p, TabPath p → follow u.child b p = follow s.child b p :=
    fun b hb p hp => h.trees.follow_set ha hpt hb hp
  have hself : u.leaf a v = some e := h.trees.leaf_set_self ha hpt (h.held_lt hheld) hpres
  have hoth : ∀ b ∈ R, ∀ w < userPages, ¬ (b = a ∧ w = v) → u.leaf b w = s.leaf b w :=
    fun b hb w hw hout => h.trees.leaf_set_ne ha hv hpt hb hw hout
  refine ⟨⟨h.nodup, h.nframes, ?_, ?_, ?_, ?_, ?_, ?_, ?_, ?_, ?_, h.root, h.kern, ?_, ?_⟩, hself, hoth, hf⟩
  · intro r r' p p' t hr hr' hp hp' h1 h2
    rw [hf r hr p hp] at h1; rw [hf r' hr' p' hp'] at h2
    exact h.unshared r r' p p' t hr hr' hp hp' h1 h2
  · intro b hb p t hp h1
    rw [hf b hb p hp] at h1
    exact h.tabHeld b hb p t hp h1
  · intro b hb p t hp h1
    rw [hf b hb p hp] at h1
    exact h.tabRc b hb p t hp h1
  · intro b hb p t i hpi h1
    have hp : TabPath p := tabPath_closed p i [] hpi
    rw [hf b hb p hp] at h1
    rw [h.trees.entry_set ha hpt hb hp h1 (fun hc => by
      have := hpi.1
      rw [hc.2.1] at this
      simp [ptPath] at this)]
    exact h.tabFlags b hb p t i hpi h1
  · intro b hb w hw e' h1
    by_cases hout : b = a ∧ w = v
    · obtain ⟨rfl, rfl⟩ := hout
      rw [hself] at h1; cases h1
      exact hheld
    · rw [hoth b hb w hw hout] at h1
      exact h.leafHeld b hb w hw e' h1
  · intro b hb w hw e' h1 c hc p hp
    rw [hf c hc p hp]
    by_cases hout : b = a ∧ w = v
    · obtain ⟨rfl, rfl⟩ := hout
      rw [hself] at h1; cases h1
      exact htab c hc p hp
    · rw [hoth b hb w hw hout] at h1
      exact h.leafTab b hb w hw e' h1 c hc p hp
  · intro b hb w hw e' h1
    by_cases hout : b = a ∧ w = v
    · obtain ⟨rfl, rfl⟩ := hout
      rw [hself] at h1; cases h1
      exact hflags
    · rw [hoth b hb w hw hout] at h1
      exact h.leafFlags b hb w hw e' h1
  · intro b hb w hw w' hw' e1 e2 h1 h2 heq
    by_cases ho1 : b = a ∧ w = v
    · obtain ⟨rfl, rfl⟩ := ho1
      rw [hself] at h1; cases h1
      by_cases ho2 : w' = w
      · exact ho2.symm
      · rw [hoth b hb w' hw' (fun hc => ho2 hc.2)] at h2
        exact absurd heq.symm (hinj w' hw' ho2 e2 h2)
    · rw [hoth b hb w hw ho1] at h1
      by_cases ho2 : b = a ∧ w' = v
      · obtain ⟨rfl, rfl⟩ := ho2
        rw [hself] at h2; cases h2
        exact absurd heq (hinj w hw (fun hc => ho1 ⟨rfl, hc⟩) e1 h1)
      · rw [hoth b hb w' hw' ho2] at h2
        exact h.leafInj b hb w hw w' hw' e1 e2 h1 h2 heq
  · intro b hb w hw e1 h1 hrw c hc w' hw' e2 h2 heq
    by_cases ho1 : b = a ∧ w = v
    · obtain ⟨rfl, rfl⟩ := ho1
      rw [hself] at h1; cases h1
      by_cases ho2 : c = b ∧ w' = w
      · exact ho2
      · rw [hoth c hc w' hw' ho2] at h2
        have := (hex c hc w' hw' ho2 e2 h2 heq).1
        rw [hrw] at this; cases this
    · rw [hoth b hb w hw ho1] at h1
      by_cases ho2 : c = a ∧ w' = v
      · obtain ⟨rfl, rfl⟩ := ho2
        rw [hself] at h2; cases h2
        have := (hex b hb w hw ho1 e1 h1 heq.symm).2
        rw [hrw] at this; cases this
      · rw [hoth c hc w' hw' ho2] at h2
        exact h.excl b hb w hw e1 h1 hrw c hc w' hw' e2 h2 heq
  · intro b hb p hp
    rw [hf b hb p hp]
    exact h.kernTab b hb p hp
  · intro b hb w hw e' h1
    by_cases hout : b = a ∧ w = v
    · obtain ⟨rfl, rfl⟩ := hout
      rw [hself] at h1; cases h1
      exact hkern
    · rw [hoth b hb w hw hout] at h1
      exact h.kernLeaf b hb w hw e' h1

theorem fresh (h : Shape s R) {c : Nat} (hc : s.pmm.used c = false) : (∀ a ∈ R, ∀ p, TabPath p → follow s.child a p ≠ some c) ∧
    (∀ a ∈ R, ∀ v < userPages, ∀ e, s.leaf a v = some e → e.frame ≠ c) ∧ s.kpml4 ≠ c := by
  refine ⟨fun a ha p hp ht => ?_, fun a ha v hv e he hec => ?_, fun hk => ?_⟩
  · have := (h.tabHeld a ha p c hp ht).used
    rw [hc] at this; cases this
  · have := (h.leafHeld a ha v hv e he).used
    rw [hec, hc] at this; cases this
  · have := h.kern.used
    rw [hk, hc] at this; cases this

end Shape

/-! ## Growing the tables of one address space -/

theorem tableFlags : hasFlag (PAGE_PRESENT ||| PAGE_RW ||| PAGE_USER) PAGE_PRESENT = true ∧
    hasFlag (PAGE_PRESENT ||| PAGE_RW ||| PAGE_USER) PAGE_USER = true ∧
    hasFlag (PAGE_PRESENT ||| PAGE_RW ||| PAGE_USER) PAGE_RW = true ∧
    hasFlag (PAGE_PRESENT ||| PAGE_RW ||| PAGE_USER) PAGE_PS = false := by decide

theorem ensureTable_failed (s : Vm) (t i : Nat) (u : Flags) (h : (ensureTable s t i u).1.pmm.failed = false) :
    s.pmm.failed = false := by
  unfold ensureTable at h
  simp only at h
  split at h
  · exact h
  · split at h
    · exact pmmAllocFrame_failed h
    · exact pmmAllocFrame_failed h

theorem ensureTable_false (s : Vm) (t i : Nat) (u : Flags) (h : (ensureTable s t i u).2 = false) :
    (ensureTable s t i u).1.pmm.failed = true := by
  unfold ensureTable at h ⊢
  dsimp only at h ⊢
  by_cases hp : (s.entry t i).present = true
  · rw [if_pos hp] at h
    cases h
  rw [if_neg hp] at h ⊢
  by_cases h0 : s.allocFrame.1 = 0
  · rw [if_pos h0]
    exact pmmAllocFrame_eq_zero s.pmm h0
  · rw [if_neg h0] at h
    cases h

variable {s s' : Vm} {R p : List Nat} {a t va pa d : Nat}

/-- **One level of `vmm_map_page_into` keeps the forest in shape**, whatever its outcome. -/
theorem Levelled.shape {i : Nat} {ok : Bool}
    (hl : Levelled s s' R a t i PAGE_USER ok) (h : Shape s R) (ha : a ∈ R) (hpi : TabPath (p ++ [i]))
    (ht : follow s.child a p = some t) : Shape s' R := by
  have hfl : ok = true → (s'.entry t i).user = true ∧ (s'.entry t i).rw = true ∧ (s'.entry t i).ps = false := by
    intro hok
    unfold Pte.user Pte.rw Pte.ps
    rw [hl.flags hok]
    by_cases hpres : (s.entry t i).present = true
    · -- only the user bit may have been added
      obtain ⟨hu, hr, hp⟩ := h.tabFlags a ha p t i hpi ht hpres
      rw [if_pos hpres, hasFlag_user, hasFlag_rw, hasFlag_ps, getLsbD_or, getLsbD_or, getLsbD_or,
        ← hasFlag_user, ← hasFlag_rw, ← hasFlag_ps, show hasFlag (s.entry t i).flags PAGE_USER = true from hu,
        show hasFlag (s.entry t i).flags PAGE_RW = true from hr, show hasFlag (s.entry t i).flags PAGE_PS = false from hp]
      decide
    · rw [if_neg hpres]
      exact tableFlags.2
  -- a table of `b` is one it had, or the fresh one
  have htab : ∀ b ∈ R, ∀ q x, TabPath q → follow s'.child b q = some x → follow s.child b q = some x ∨
      (s.pmm.used x = false ∧ s'.pmm.Held x ∧ s'.pmm.refcount x = 1) := by
    intro b hb q x hq hx
    by_cases hba : b = a
    · subst hba
      exact hl.fresh q x hq hx
    · rw [hl.grew.other b hb hba q hq] at hx
      exact .inl hx
  have hmarked : ∀ f, s.pmm.used f = true → (∀ b ∈ R, ∀ q, TabPath q → follow s.child b q ≠ some f) →
      ∀ b ∈ R, ∀ q, TabPath q → follow s'.child b q ≠ some f := fun f hf hout => hl.grew.notTab hf hout
  refine ⟨h.nodup, hl.trees.nframes, hl.trees.unshared, ?_, ?_, ?_, ?_, ?_, ?_, ?_, ?_, ?_, ?_, ?_, ?_⟩
  · intro b hb q x hq hx
    rcases htab b hb q x hq hx with hx | ⟨-, hx, -⟩
    · exact hl.grew.heldFrame (h.tabHeld b hb q x hq hx)
    · exact hx
  · intro b hb q x hq hx
    rcases htab b hb q x hq hx with hx | ⟨-, -, hx⟩
    · rw [(hl.grew.held x (h.tabHeld b hb q x hq hx).used).2]
      exact h.tabRc b hb q x hq hx
    · exact hx
  · intro b hb q x j hqj hx hpj
    rcases hl.entries b hb q x j hqj hx hpj with ⟨hok, rfl, rfl⟩ | ⟨hx, he⟩
    · exact hfl hok
    · rw [he] at hpj ⊢
      exact h.tabFlags b hb q x j hqj hx hpj
  · intro b hb v hv e he
    rw [hl.leaf b hb v] at he
    exact hl.grew.heldFrame (h.leafHeld b hb v hv e he)
  · intro b hb v hv e he
    rw [hl.leaf b hb v] at he
    exact hmarked _ (h.leafHeld b hb v hv e he).used (h.leafTab b hb v hv e he)
  · intro b hb v hv e he
    rw [hl.leaf b hb v] at he
    exact h.leafFlags b hb v hv e he
  · intro b hb v hv w hw e e' he he'
    rw [hl.leaf b hb v] at he
    rw [hl.leaf b hb w] at he'
    exact h.leafInj b hb v hv w hw e e' he he'
  · intro b hb v hv e he hrw d hd w hw e' he'
    rw [hl.leaf b hb v] at he
    rw [hl.leaf d hd w] at he'
    exact h.excl b hb v hv e he hrw d hd w hw e' he'
  · rw [hl.grew.kpml4]
    exact h.root
  · rw [hl.grew.kpml4]
    exact hl.grew.heldFrame h.kern
  · rw [hl.grew.kpml4]
    exact hmarked _ h.kern.used h.kernTab
  · intro b hb v hv e he
    rw [hl.leaf b hb v] at he
    rw [hl.grew.kpml4]
    exact h.kernLeaf b hb v hv e he

/-! ## Mapping one page -/

theorem ensureTables_failed (u : Flags) : ∀ (p : List Nat) (s : Vm) (t : Nat),
    (ensureTables u p s t).1.pmm.failed = false → s.pmm.failed = false
  | [], _, _, h => h
  | i :: p, s, t, h => by
    rw [ensureTables] at h
    apply ensureTable_failed s t i u
    cases he : ensureTable s t i u with | mk s1 b1 =>
    rw [he] at h
    cases b1 with
    | false => exact h
    | true => exact ensureTables_failed u p s1 _ h

theorem ensureTables_none (u : Flags) : ∀ (p : List Nat) (s : Vm) (t : Nat),
    (ensureTables u p s t).2 = none → (ensureTables u p s t).1.pmm.failed = true
  | [], _, _, h => by cases h
  | i :: p, s, t, h => by
    have hf := ensureTable_false s t i u
    rw [ensureTables] at h ⊢
    cases he : ensureTable s t i u with | mk s1 b1 =>
    rw [he] at h hf
    cases b1 with
    | false => exact hf rfl
    | true => exact ensureTables_none u p s1 _ h

theorem ensureTables_shape (ha : a ∈ R) (rest p : List Nat) (s : Vm) (t : Nat) (h : Shape s R)
    (hp : WalkPath (p ++ rest)) (ht : follow s.child a p = some t) : Shape (ensureTables PAGE_USER rest s t).1 R := by
  induction rest generalizing p s t with
  | nil => exact h
  | cons i rest ih =>
    have hsplit := append_cons p i rest
    have hpi : WalkPath (p ++ [i]) := WalkPath.of_append (hsplit ▸ hp)
    have hl := ensureTable_levelled h.trees ha hpi ht PAGE_USER
    have hs := hl.shape h ha hpi.tabPath ht
    rw [ensureTables]
    cases he : ensureTable s t i PAGE_USER with | mk s1 ok =>
    rw [he] at hl hs
    cases ok with
    | false => exact hs
    | true => exact ih (p ++ [i]) s1 _ hs (hsplit ▸ hp) (hl.follow_snoc ha hpi ht)

theorem vmmMapPageInto_failed (s : Vm) (a va pa : Nat) (fl : Flags)
    (h : (vmmMapPageInto s a va pa fl).1.pmm.failed = false) : s.pmm.failed = false := by
  apply ensureTables_failed (fl &&& PAGE_USER) [ix4 va, ix3 va, ix2 va] s a
  unfold vmmMapPageInto at h
  cases he : ensureTables (fl &&& PAGE_USER) [ix4 va, ix3 va, ix2 va] s a with | mk s1 o =>
  rw [he] at h
  cases o <;> exact h

theorem vmmMapPageInto_false (s : Vm) (a va pa : Nat) (fl : Flags) (h : (vmmMapPageInto s a va pa fl).2 = false) :
    (vmmMapPageInto s a va pa fl).1.pmm.failed = true := by
  have hn := ensureTables_none (fl &&& PAGE_USER) [ix4 va, ix3 va, ix2 va] s a
  unfold vmmMapPageInto at h ⊢
  cases he : ensureTables (fl &&& PAGE_USER) [ix4 va, ix3 va, ix2 va] s a with | mk s1 o =>
  rw [he] at h hn
  cases o with
  | none => exact hn rfl
  | some pt => cases h

variable {fl : Flags}

/-- **`vmm_map_page_into` stores one leaf entry or none**, after it has grown the tables of `a` on the way. -/
theorem vmmMapPageInto_eq (h : Shape s R) (pa : Nat) (ha : a ∈ R)
    (hva : va / 4096 < userPages) (hu : fl &&& PAGE_USER = PAGE_USER) :
    ∃ s1, Shape s1 R ∧ Grew s s1 R a ∧ (∀ b ∈ R, ∀ v, s1.leaf b v = s.leaf b v) ∧
      ((vmmMapPageInto s a va pa fl = (s1, false)) ∨ ∃ pt, follow s1.child a (ptPath (va / 4096)) = some pt ∧
        vmmMapPageInto s a va pa fl = (s1.setEntry pt (va / 4096 % 512) ⟨pa, fl ||| PAGE_PRESENT⟩, true)) := by
  unfold vmmMapPageInto
  rw [ptPath_va va, ← (ix_eq va).2.2, hu, ix4_eq va hva]
  have hp : WalkPath ([] ++ [0, ix3 va, ix2 va]) := by
    rw [nil_append, ← ptPath_va]
    exact walkPath_ptPath _
  obtain ⟨-, hg, hl, hd⟩ := ensureTables_trees ha PAGE_USER _ [] s a h.trees hp rfl
  have hs := ensureTables_shape ha _ [] s a h hp rfl
  cases he : ensureTables PAGE_USER [0, ix3 va, ix2 va] s a with | mk s1 o =>
  rw [he] at hg hl hd hs
  refine ⟨s1, hs, hg, hl, ?_⟩
  cases o with
  | none => exact .inl rfl
  | some pt => exact .inr ⟨pt, hd pt rfl, rfl⟩

structure Mapped (s s' : Vm) (R : List Nat) (a v : Nat) (e : Pte) : Prop extends Grew s s' R a where
  shape : Shape s' R
  self : s'.leaf a v = some e
  leaf : ∀ b ∈ R, ∀ w < userPages, ¬ (b = a ∧ w = v) → s'.leaf b w = s.leaf b w

theorem user_and (h : hasFlag fl PAGE_USER = true) : fl &&& PAGE_USER = PAGE_USER := by
  rw [hasFlag_user] at h
  rw [show PAGE_USER = twoPow 12 2 from rfl, and_twoPow, h, if_pos rfl]

section

variable (h : Shape s R) (ha : a ∈ R) (hva : va / 4096 < userPages) (huser : hasFlag fl PAGE_USER = true)
include h ha hva huser

/-- **A failed `vmm_map_page_into`** has grown the tables at most. -/
theorem vmmMapPageInto_kept (hans : (vmmMapPageInto s a va pa fl).2 = false) :
    let r := vmmMapPageInto s a va pa fl
    Shape r.1 R ∧ Grew s r.1 R a ∧ ∀ b ∈ R, ∀ v, r.1.leaf b v = s.leaf b v := by
  obtain ⟨s1, sh1, g1, l1, heq | ⟨pt, -, heq⟩⟩ := vmmMapPageInto_eq h pa ha hva (user_and huser)
  · rw [heq]
    exact ⟨sh1, g1, l1⟩
  · rw [heq] at hans
    cases hans

/-- **`vmm_map_page_into`**, for an allocated frame that is no table: the leaf of the page is set, nothing else moves. -/
theorem vmmMapPageInto_mapped (hrw : hasFlag fl PAGE_RW = !hasFlag fl PAGE_COW) (hheld : s.pmm.Held pa)
    (htab : ∀ b ∈ R, ∀ p, TabPath p → follow s.child b p ≠ some pa) (hkern : pa ≠ s.kpml4)
    (hinj : ∀ w < userPages, w ≠ va / 4096 → ∀ e', s.leaf a w = some e' → e'.frame ≠ pa)
    (hex : ∀ b ∈ R, ∀ w < userPages, ¬ (b = a ∧ w = va / 4096) → ∀ e', s.leaf b w = some e' → e'.frame = pa →
    hasFlag fl PAGE_RW = false ∧ e'.rw = false) (hans : (vmmMapPageInto s a va pa fl).2 = true) :
    Mapped s (vmmMapPageInto s a va pa fl).1 R a (va / 4096) ⟨pa, fl ||| PAGE_PRESENT⟩ := by
  obtain ⟨s1, sh1, g1, l1, heq | ⟨pt, f1, heq⟩⟩ := vmmMapPageInto_eq h pa ha hva (user_and huser)
  · rw [heq] at hans
    cases hans
  set r := fl ||| PAGE_PRESENT
  have hkeep : ∀ k, k ≠ 0 → r.getLsbD k = fl.getLsbD k := by
    intro k hk
    rw [getLsbD_or, show PAGE_PRESENT = twoPow 12 0 from rfl, getLsbD_twoPow]
    simp [Ne.symm hk]
  have hpres : hasFlag r PAGE_PRESENT = true := by
    rw [hasFlag_present, getLsbD_or]; simp [PAGE_PRESENT]
  have hrw' : hasFlag r PAGE_RW = hasFlag fl PAGE_RW := by
    rw [hasFlag_rw, hasFlag_rw, hkeep 1 (by decide)]
  have hfl : hasFlag r PAGE_USER = true ∧
      hasFlag r PAGE_RW = !hasFlag r PAGE_COW := by
    rw [hrw', hrw, hasFlag_user, hasFlag_cow, hasFlag_cow, hkeep 2 (by decide), hkeep 9 (by decide), ← hasFlag_user]
    exact ⟨huser, rfl⟩
  obtain ⟨sh2, hself, hoth, hf⟩ := sh1.set_leaf ha hva f1 ⟨pa, fl ||| PAGE_PRESENT⟩ hpres hfl (g1.heldFrame hheld)
    (g1.notTab hheld.used htab) (by rw [g1.kpml4]; exact hkern)
    (fun w hw hne e' he' => hinj w hw hne e' (by rw [← l1 a ha w]; exact he'))
    (fun b hb w hw hne e' he' hfr => by
      rw [l1 b hb w] at he'
      obtain ⟨h1, h2⟩ := hex b hb w hw hne e' he' hfr
      exact ⟨hrw'.trans h1, h2⟩)
  rw [heq]
  refine ⟨⟨?_, ?_, ?_, g1.nframes, g1.held, ?_, g1.kpml4, ?_, g1.idle, ?_⟩, sh2, hself, fun b hb w hw hne => ?_⟩
  · intro b hb p t hp ht
    rw [hf b hb p hp]
    exact g1.mono b hb p t hp ht
  · intro b hb hne p hp
    rw [hf b hb p hp]
    exact g1.other b hb hne p hp
  · intro p t hp ht
    rw [hf a ha p hp] at ht
    exact g1.new p t hp ht
  · intro f hfu hout
    rw [mem_setEntry_ne, g1.mem f hfu hout]
    rintro rfl
    rcases g1.new _ _ (tabPath_ptPath _) f1 with hc | hc
    · exact hout _ (tabPath_ptPath _) hc
    · rw [hfu] at hc; cases hc
  · intro f hfu
    rcases g1.owns f hfu with hu | h0 | ⟨p, hp, ht⟩
    · exact .inl hu
    · exact .inr (.inl h0)
    · exact .inr (.inr ⟨p, hp, by rw [hf a ha p hp.tabPath]; exact ht⟩)
  · intro j hj
    rw [entry_setEntry_ne, g1.root j hj]
    rintro ⟨rfl, -⟩
    have hnil := (sh1.unshared a a [] _ a ha ha tabPath_nil (tabPath_ptPath _) rfl f1).2
    cases hnil
  · rw [hoth b hb w hw hne, l1 b hb w]

end

theorem vmmMapPageInto_true (hok : (vmmMapPageInto s a va pa fl).1.pmm.failed = false) : (vmmMapPageInto s a va pa fl).2 = true := by
  by_contra hc
  rw [Bool.not_eq_true] at hc
  rw [vmmMapPageInto_false s a va pa fl hc] at hok
  cases hok

/-! ## A new address space -/

theorem follow_of_empty (hempty : s.child d 0 = none) (hp : TabPath p)
    (ht : follow s.child d p = some t) : p = [] ∧ t = d := by
  cases p with
  | nil => rw [follow] at ht; exact ⟨rfl, (some.inj ht).symm⟩
  | cons i p =>
    obtain rfl : i = 0 := hp.2 i rfl
    rw [follow, hempty] at ht
    cases ht

theorem leaf_of_empty (hempty : s.child d 0 = none) (v : Nat) : s.leaf d v = none := by
  unfold Vm.leaf ptPath
  rw [follow, hempty, bind_none, bind_none]

theorem Trees.cons_empty (h : Trees s R) (hu : s.pmm.used d = true)
    (hempty : s.child d 0 = none) (htab : ∀ a ∈ R, ∀ p, TabPath p → follow s.child a p ≠ some d) : Trees s (d :: R) := by
  refine ⟨h.nframes, fun r r' p p' t hr hr' hp hp' h1 h2 => ?_, fun a ha p t hp ht => ?_⟩
  · rcases mem_cons.1 hr with rfl | hrR
    · obtain ⟨rfl, rfl⟩ := follow_of_empty hempty hp h1
      rcases mem_cons.1 hr' with rfl | hrR'
      · exact ⟨rfl, (follow_of_empty hempty hp' h2).1.symm⟩
      · exact absurd h2 (htab r' hrR' p' hp')
    · rcases mem_cons.1 hr' with rfl | hrR'
      · obtain ⟨rfl, rfl⟩ := follow_of_empty hempty hp' h2
        exact absurd h1 (htab r hrR p hp)
      · exact h.unshared r r' p p' t hrR hrR' hp hp' h1 h2
  · rcases mem_cons.1 ha with rfl | ha
    · rw [(follow_of_empty hempty hp ht).2]
      exact hu
    · exact h.used a ha p t hp ht

theorem Shape.cons_empty (h : Shape s R) (hheld : s.pmm.Held d) (hrc : s.pmm.refcount d = 1) (hempty : s.child d 0 = none)
    (htab : ∀ a ∈ R, ∀ p, TabPath p → follow s.child a p ≠ some d)
    (hleaf : ∀ a ∈ R, ∀ v < userPages, ∀ e, s.leaf a v = some e → e.frame ≠ d) (h0 : d ≠ 0) (hk : d ≠ s.kpml4) :
    Shape s (d :: R) := by
  have hnone := leaf_of_empty hempty
  have hin : ∀ a ∈ d :: R, ∀ v e, s.leaf a v = some e → a ∈ R := by
    intro a ha v e he
    rcases mem_cons.1 ha with rfl | ha
    · rw [hnone v] at he; cases he
    · exact ha
  refine ⟨nodup_cons.2 ⟨fun hd => htab d hd [] tabPath_nil rfl, h.nodup⟩, h.nframes,
    (h.trees.cons_empty hheld.used hempty htab).unshared, ?_, ?_, ?_, ?_, ?_, ?_, ?_, ?_, ?_, h.kern, ?_, ?_⟩
  · intro a ha p t hp ht
    rcases mem_cons.1 ha with rfl | ha
    · rw [(follow_of_empty hempty hp ht).2]; exact hheld
    · exact h.tabHeld a ha p t hp ht
  · intro a ha p t hp ht
    rcases mem_cons.1 ha with rfl | ha
    · rw [(follow_of_empty hempty hp ht).2]; exact hrc
    · exact h.tabRc a ha p t hp ht
  · intro a ha p t i hpi ht hpres
    rcases mem_cons.1 ha with rfl | ha
    · obtain ⟨rfl, rfl⟩ := follow_of_empty hempty (tabPath_closed p i [] hpi) ht
      obtain rfl : i = 0 := hpi.2 i rfl
      rw [child_eq_some.2 ⟨hpres, rfl⟩] at hempty
      cases hempty
    · exact h.tabFlags a ha p t i hpi ht hpres
  · intro a ha v hv e he; exact h.leafHeld a (hin a ha v e he) v hv e he
  · intro a ha v hv e he b hb p hp ht
    rcases mem_cons.1 hb with rfl | hb
    · exact hleaf a (hin a ha v e he) v hv e he (follow_of_empty hempty hp ht).2
    · exact h.leafTab a (hin a ha v e he) v hv e he b hb p hp ht
  · intro a ha v hv e he; exact h.leafFlags a (hin a ha v e he) v hv e he
  · intro a ha v hv w hw e e' he; exact h.leafInj a (hin a ha v e he) v hv w hw e e' he
  · intro a ha v hv e he hrw b hb w hw e' he'
    exact h.excl a (hin a ha v e he) v hv e he hrw b (hin b hb w e' he') w hw e' he'
  · intro a ha
    rcases mem_cons.1 ha with rfl | ha
    · exact ⟨h0, hk⟩
    · exact h.root a ha
  · intro a ha p hp ht
    rcases mem_cons.1 ha with rfl | ha
    · exact hk (follow_of_empty hempty hp ht).2.symm
    · exact h.kernTab a ha p hp ht
  · intro a ha v hv e he; exact h.kernLeaf a (hin a ha v e he) v hv e he

/-- What a step that only takes the free frame `d` has done to the rest. -/
structure Took (s s' : Vm) (d : Nat) : Prop where
  unused : s.pmm.used d = false
  heldNew : s'.pmm.Held d
  rcNew : s'.pmm.refcount d = 1
  nframes : s'.pmm.nframes = s.pmm.nframes
  pmm : ∀ f, f ≠ d → s'.pmm.used f = s.pmm.used f ∧ s'.pmm.refcount f = s.pmm.refcount f
  mem : ∀ f, f ≠ d → s'.mem f = s.mem f
  kpml4 : s'.kpml4 = s.kpml4

namespace Took

variable {s s' : Vm} {d : Nat} {R : List Nat} {f a : Nat}

theorem ne (h : Took s s' d) (hf : s.pmm.used f = true) : f ≠ d := by
  rintro rfl
  rw [h.unused] at hf; cases hf

theorem heldFrame (h : Took s s' d) (hf : s.pmm.Held f) : s'.pmm.Held f := by
  obtain ⟨h1, h2⟩ := h.pmm f (h.ne hf.used)
  exact ⟨by rw [h.nframes]; exact hf.lt, by rw [h1]; exact hf.used, by rw [h2]; exact hf.pos⟩

section

variable (h : Took s s' d) (hs : Shape s R)
include h hs

theorem memTab : ∀ a ∈ R, ∀ p t, TabPath p → follow s.child a p = some t → s'.mem t = s.mem t :=
  fun a ha p t hp ht => h.mem t (h.ne (hs.tabHeld a ha p t hp ht).used)

theorem shape : Shape s' R := by
  refine hs.of_frame (h.memTab hs) h.kpml4 h.nframes (fun a ha p t hp ht => ?_)
    (fun a ha v hv e he => h.heldFrame (hs.leafHeld a ha v hv e he)) (h.heldFrame hs.kern)
  have ht' := hs.tabHeld a ha p t hp ht
  refine ⟨h.heldFrame ht', ?_⟩
  rw [(h.pmm t (h.ne ht'.used)).2]
  exact hs.tabRc a ha p t hp ht

theorem follow (ha : a ∈ R) {p : List Nat} (hp : TabPath p) : Radix.follow s'.child a p = Radix.follow s.child a p :=
  Shape.follow_of_tabs (h.memTab hs) ha (tabPath_closed.inner hp)

theorem leaf (ha : a ∈ R) (v : Nat) : s'.leaf a v = s.leaf a v :=
  Shape.leaf_of_tabs (h.memTab hs) ha v

theorem fresh : (∀ a ∈ R, ∀ p, TabPath p → Radix.follow s'.child a p ≠ some d) ∧
    (∀ a ∈ R, ∀ v < userPages, ∀ e, s'.leaf a v = some e → e.frame ≠ d) ∧ d ≠ s'.kpml4 := by
  obtain ⟨h1, h2, h3⟩ := hs.fresh h.unused
  refine ⟨fun a ha p hp => ?_, fun a ha v hv e he => ?_, ?_⟩
  · rw [h.follow hs ha hp]; exact h1 a ha p hp
  · rw [h.leaf hs ha v] at he; exact h2 a ha v hv e he
  · rw [h.kpml4]; exact Ne.symm h3

theorem mapped {va : Nat} {fl : Flags} (ha : a ∈ R) (hva : va / 4096 < userPages) (huser : hasFlag fl PAGE_USER = true)
    (hrw : hasFlag fl PAGE_RW = !hasFlag fl PAGE_COW) (hans : (vmmMapPageInto s' a va d fl).2 = true) :
    Mapped s' (vmmMapPageInto s' a va d fl).1 R a (va / 4096) ⟨d, fl ||| PAGE_PRESENT⟩ := by
  obtain ⟨h1, h2, h3⟩ := h.fresh hs
  exact vmmMapPageInto_mapped (h.shape hs) ha hva huser hrw h.heldNew h1 h3 (fun w hw _ e' he' => h2 a ha w hw e' he')
    (fun b hb w hw _ e' he' hx => absurd hx (h2 b hb w hw e' he')) hans

end

end Took

theorem took_of_ne (h0 : s.allocFrame.1 ≠ 0) : Took s s.allocFrame.2 s.allocFrame.1 := by
  obtain ⟨-, -, hu, hh, hr, hn, hoth⟩ := pmmAllocFrame_took s.pmm h0
  exact ⟨hu, hh, hr, hn, hoth, fun f _ => rfl, rfl⟩

theorem Took.filled (h : Took s s' d) (b : Nat → UInt8) : Took s (s'.setFrame d b) d :=
  ⟨h.unused, h.heldNew, h.rcNew, h.nframes, h.pmm, fun f hf => (mem_setFrame_ne hf).trans (h.mem f hf), h.kpml4⟩

theorem took_alloc (hok : s.allocFrame.2.pmm.failed = false) : s.allocFrame.1 ≠ 0 ∧ Took s s.allocFrame.2 s.allocFrame.1 := by
  have h0 := (pmmAllocFrame_spec s.pmm hok).1
  exact ⟨h0, took_of_ne h0⟩

theorem took_allocFrame (hok : s.allocFrame.2.pmm.failed = false) (b : Nat → UInt8) :
    s.allocFrame.1 ≠ 0 ∧ Took s (s.allocFrame.2.setFrame s.allocFrame.1 b) s.allocFrame.1 := by
  obtain ⟨h0, h⟩ := took_alloc hok
  exact ⟨h0, h.filled b⟩

/-- **`vmm_create_address_space`** answers a fresh PML4 with an empty user half. -/
theorem vmmCreateAddressSpace_took (h0 : (vmmCreateAddressSpace s).1 ≠ 0) :
    let w := vmmCreateAddressSpace s
    Took s w.2 w.1 ∧ w.2.child w.1 0 = none := by
  have ha : s.allocFrame.1 ≠ 0 := by
    intro hc
    apply h0
    unfold vmmCreateAddressSpace
    simp only [if_pos hc]
  have htook := (took_of_ne ha).filled (fun _ => 0)
  generalize hd : s.allocFrame.1 = d at *
  generalize hz : s.allocFrame.2.setFrame d (fun _ => 0) = z at *
  set r := z.setEntry d PML4_PHYSMAP (z.entry z.kpml4 PML4_PHYSMAP)
  have heq : vmmCreateAddressSpace s = (d, r.setEntry d PML4_KERNEL (r.entry z.kpml4 PML4_KERNEL)) := by
    unfold vmmCreateAddressSpace
    simp only [hd, if_neg ha, Vm.zeroTable, hz]
    rfl
  rw [heq]
  generalize z.entry z.kpml4 PML4_PHYSMAP = x
  generalize (z.setEntry d PML4_PHYSMAP x).entry z.kpml4 PML4_KERNEL = y
  refine ⟨(htook.filled _).filled _, ?_⟩
  unfold Vm.child
  rw [entry_setEntry_ne (by unfold PML4_KERNEL; omega),
    entry_setEntry_ne (by unfold PML4_PHYSMAP; omega), ← hz]
  rw [show (s.allocFrame.2.setFrame d fun _ => 0).entry d 0 = ⟨0, 0⟩ from entry_zeroTable s.allocFrame.2 d 0]
  rfl

/-- **`vmm_create_address_space`** adds an empty address space to the forest. -/
theorem vmmCreateAddressSpace_shape (h : Shape s R) (h0 : (vmmCreateAddressSpace s).1 ≠ 0) :
    Shape (vmmCreateAddressSpace s).2 ((vmmCreateAddressSpace s).1 :: R) := by
  obtain ⟨htook, hempty⟩ := vmmCreateAddressSpace_took h0
  obtain ⟨h1, h2, h3⟩ := htook.fresh h
  exact (htook.shape h).cons_empty htook.heldNew htook.rcNew hempty h1 h2 h0 h3

theorem vmmCreateAddressSpace_spec (h : Shape s R) (hok : (vmmCreateAddressSpace s).2.pmm.failed = false) :
    let r := vmmCreateAddressSpace s
    r.1 ≠ 0 ∧ Took s r.2 r.1 ∧ Shape r.2 (r.1 :: R) ∧ r.2.child r.1 0 = none := by
  have h0 : (vmmCreateAddressSpace s).1 ≠ 0 := by
    by_cases ha : s.allocFrame.1 = 0
    · have heq : vmmCreateAddressSpace s = (0, s.allocFrame.2) := by
        unfold vmmCreateAddressSpace
        simp only [if_pos ha]
      rw [heq] at hok
      exact absurd ha (took_alloc hok).1
    · unfold vmmCreateAddressSpace
      simp only [if_neg ha]
      exact ha
  obtain ⟨htook, hempty⟩ := vmmCreateAddressSpace_took h0
  exact ⟨h0, htook, vmmCreateAddressSpace_shape h h0, hempty⟩

end Noxis
