import Noxis.VmCount
/-!
# VmAccess — user-mode accesses and the page-fault handler

`hwTranslate_eq` reads the processor's walk off the leaf of the page.  `userAccess_mapped` and `userAccess_grows` say what
an access to a mapped page and to the stack window do: whatever the handler copies or takes over, every page of every
address space still shows the same bytes, and after a write access the page is the only one on its frame.
-/
namespace Noxis

open Option Radix Pte

def Vm.page (s : Vm) (a v : Nat) : Option (Nat → UInt8) := (s.leaf a v).map (fun e => s.mem e.frame)

def Pte.Down (e : Pte) : Prop := e.present = true ∧ e.user = true ∧ e.rw = true ∧ e.ps = false

variable {s s' : Vm} {R : List Nat} {a va : Nat}

theorem walk_cases (h : Shape s R) (ha : a ∈ R) (hva : va / 4096 < userPages) : let e4 := s.entry a (ix4 va)
    let e3 := s.entry e4.frame (ix3 va)
    let e2 := s.entry e3.frame (ix2 va)
    (follow s.child a (ptPath (va / 4096)) = none ∧
      (e4.present = false ∨ (e4.Down ∧ (e3.present = false ∨ (e3.Down ∧ e2.present = false))))) ∨
    (follow s.child a (ptPath (va / 4096)) = some e2.frame ∧ e4.Down ∧ e3.Down ∧ e2.Down) := by
  intro e4 e3 e2
  have hp : TabPath [ix4 va, ix3 va, ix2 va] := ⟨by simp, fun i hi => by simp at hi; rw [← hi]; exact ix4_eq va hva⟩
  have t1 : TabPath ([] ++ [ix4 va]) := tabPath_closed [ix4 va] (ix3 va) [ix2 va] hp
  have t2 : TabPath ([ix4 va] ++ [ix3 va]) := tabPath_closed [ix4 va, ix3 va] (ix2 va) [] hp
  have d4 : e4.present = true → e4.Down := fun hp4 => ⟨hp4, h.tabFlags a ha [] a (ix4 va) t1 rfl hp4⟩
  rw [ptPath_va, ← ix4_eq va hva]
  by_cases hp4 : e4.present = true
  swap
  · have hc : s.child a (ix4 va) = none := by unfold Vm.child; rw [if_neg hp4]
    rw [Bool.not_eq_true] at hp4
    exact .inl ⟨by rw [follow, hc, bind_none], .inl hp4⟩
  have c4 : s.child a (ix4 va) = some e4.frame := child_eq_some.2 ⟨hp4, rfl⟩
  have f4 : follow s.child a [ix4 va] = some e4.frame := by rw [follow, c4]; rfl
  have d3 : e3.present = true → e3.Down := fun hp3 => ⟨hp3, h.tabFlags a ha [ix4 va] e4.frame (ix3 va) t2 f4 hp3⟩
  by_cases hp3 : e3.present = true
  swap
  · have hc : s.child e4.frame (ix3 va) = none := by unfold Vm.child; rw [if_neg hp3]
    rw [Bool.not_eq_true] at hp3
    exact .inl ⟨by rw [follow, c4, bind_some, follow, hc, bind_none], .inr ⟨d4 hp4, .inl hp3⟩⟩
  have c3 : s.child e4.frame (ix3 va) = some e3.frame := child_eq_some.2 ⟨hp3, rfl⟩
  have f3 : follow s.child a [ix4 va, ix3 va] = some e3.frame := by rw [follow, c4, bind_some, follow, c3]; rfl
  by_cases hp2 : e2.present = true
  swap
  · have hc : s.child e3.frame (ix2 va) = none := by unfold Vm.child; rw [if_neg hp2]
    rw [Bool.not_eq_true] at hp2
    refine .inl ⟨?_, .inr ⟨d4 hp4, .inr ⟨d3 hp3, hp2⟩⟩⟩
    rw [show [ix4 va, ix3 va, ix2 va] = [ix4 va, ix3 va] ++ [ix2 va] from rfl, Radix.follow_snoc, f3, bind_some, hc]
  have c2 : s.child e3.frame (ix2 va) = some e2.frame := child_eq_some.2 ⟨hp2, rfl⟩
  refine .inr ⟨?_, d4 hp4, d3 hp3, hp2, h.tabFlags a ha [ix4 va, ix3 va] e3.frame (ix2 va) hp f3 hp2⟩
  rw [show [ix4 va, ix3 va, ix2 va] = [ix4 va, ix3 va] ++ [ix2 va] from rfl, Radix.follow_snoc, f3, bind_some, c2]

/-- **The processor's walk**, read off the leaf of the page, when the tables on the way are allowed. -/
theorem walk_eq (h : Shape s R) (ha : a ∈ R) (hva : va / 4096 < userPages)
    {allowed : Pte → Bool} (hall : ∀ e : Pte, e.Down → allowed e = true) : walk allowed s a va =
      match s.leaf a (va / 4096) with
      | none => .fault false
      | some e => if allowed e then .ok e.frame else .fault true := by
  have hw := walk_cases h ha hva
  simp only at hw
  unfold walk
  simp only
  rcases hw with ⟨hf, hmiss⟩ | ⟨hf, d4, d3, d2⟩
  · rw [leaf_of_missing hf]
    rcases hmiss with p4 | ⟨d4, p3 | ⟨d3, p2⟩⟩
    · simp only [p4, Bool.not_false, if_true]
    · simp only [d4.1, p3, Bool.not_true, Bool.not_false, Bool.false_eq_true, if_true, if_false]
    · simp only [d4.1, d3.1, p2, Bool.not_true, Bool.not_false, Bool.false_eq_true, if_true, if_false]
  · rw [leaf_of_follow hf, ← (ix_eq va).2.2]
    simp only [d4.1, d3.1, d2.1, d2.2.2.2, hall _ d4, hall _ d3, hall _ d2, Bool.not_true, Bool.and_self, Bool.true_and,
      Bool.false_eq_true, if_false]
    generalize (s.entry (s.entry (s.entry a (ix4 va)).frame (ix3 va)).frame (ix2 va)).frame = pt at *
    by_cases hp1 : (s.entry pt (ix1 va)).present = true
    · simp only [hp1, Bool.not_true, Bool.false_eq_true, if_true, if_false]
    · simp only [hp1, Bool.not_false, Bool.false_eq_true, if_true, if_false]

theorem hwTranslate_eq (h : Shape s R) (ha : a ∈ R) (hva : va / 4096 < userPages) (w : Bool) : hwTranslate s a va w =
      match s.leaf a (va / 4096) with
      | none => .fault false
      | some e => if !w || e.rw then .ok e.frame else .fault true := by
  unfold hwTranslate
  rw [walk_eq h ha hva (fun e he => by simp only [he.2.1, he.2.2.1, Bool.or_true, Bool.and_self])]
  cases he : s.leaf a (va / 4096) with
  | none => rfl
  | some e => simp only [(h.leafFlags a ha _ hva e he).1, Bool.true_and]

/-! ## The copy-on-write fault -/

/-- The flags after a copy-on-write fault: writable, no longer marked. -/
def ownFlags (fl : Flags) : Flags := (fl &&& ~~~PAGE_COW) ||| PAGE_RW

theorem ownFlags_present (fl : Flags) : hasFlag (ownFlags fl) PAGE_PRESENT = hasFlag fl PAGE_PRESENT := by
  rw [hasFlag_present, hasFlag_present]; simp [ownFlags, PAGE_RW, PAGE_COW]

theorem ownFlags_user (fl : Flags) : hasFlag (ownFlags fl) PAGE_USER = hasFlag fl PAGE_USER := by
  rw [hasFlag_user, hasFlag_user]; simp [ownFlags, PAGE_RW, PAGE_COW]

theorem ownFlags_rw (fl : Flags) : hasFlag (ownFlags fl) PAGE_RW = true := by
  rw [hasFlag_rw]; simp [ownFlags, PAGE_RW]

theorem ownFlags_cow (fl : Flags) : hasFlag (ownFlags fl) PAGE_COW = false := by
  rw [hasFlag_cow]; simp [ownFlags, PAGE_RW, PAGE_COW]

/-- What an access leaves behind: page `v` of `a` shows `p`, every other page what it showed, and the invariants hold. -/
structure Shows (s s' : Vm) (R : List Nat) (a v : Nat) (e : Pte) (p : Nat → UInt8) : Prop where
  shape : Shape s' R
  counted : Counted s' R
  leaf : s'.leaf a v = some e
  self : s'.mem e.frame = p
  page : ∀ b ∈ R, ∀ w < userPages, ¬ (b = a ∧ w = v) → s'.page b w = s.page b w
  kpml4 : s'.kpml4 = s.kpml4

theorem Shows.trans {s'' : Vm} {v : Nat} {e e' : Pte} {p p' : Nat → UInt8} (h : Shows s s' R a v e p)
    (h' : Shows s' s'' R a v e' p') : Shows s s'' R a v e' p' :=
  ⟨h'.shape, h'.counted, h'.leaf, h'.self, fun b hb w hw hne => (h'.page b hb w hw hne).trans (h.page b hb w hw hne),
    h'.kpml4.trans h.kpml4⟩

theorem page_congr {b w : Nat} (hl : s'.leaf b w = s.leaf b w)
    (hm : ∀ e, s.leaf b w = some e → s'.mem e.frame = s.mem e.frame) : s'.page b w = s.page b w := by
  unfold Vm.page
  rw [hl]
  cases he : s.leaf b w with
  | none => rfl
  | some e => simp only [map_some, hm e he]

section CowFault

variable {s : Vm} {R : List Nat} {a v pt : Nat} {e : Pte}

section

variable (h : Shape s R) (hc : Counted s R) (ha : a ∈ R) (hv : v < userPages) (hpt : follow s.child a (ptPath v) = some pt)
  (he : s.leaf a v = some e)
include h hc ha hv hpt he

/-- **Sole owner**: the page is made writable in place. -/
theorem own_in_place (hrc : s.pmm.refcount e.frame = 1) : Shows s (s.setEntry pt (v % 512) ⟨e.frame, ownFlags e.flags⟩) R a v
    ⟨e.frame, ownFlags e.flags⟩ (s.mem e.frame) := by
  obtain ⟨-, -, -, hpres⟩ := leaf_eq_some.1 he
  have hcount : mapCount s R e.frame ≤ 1 := by rw [← hrc]; exact hc e.frame
  obtain ⟨sh, l, lo, -⟩ := h.set_leaf ha hv hpt ⟨e.frame, ownFlags e.flags⟩
    (by unfold present; rw [ownFlags_present]; exact hpres)
    (by
      unfold user rw cow
      rw [ownFlags_user, ownFlags_rw, ownFlags_cow]
      exact ⟨(h.leafFlags a ha v hv e he).1, rfl⟩)
    (h.leafHeld a ha v hv e he) (h.leafTab a ha v hv e he) (h.kernLeaf a ha v hv e he)
    (fun w hw hne e' he' hfr => hne (h.leafInj a ha w hw v hv e' e he' he hfr))
    (fun b hb w hw hne e' he' hfr => absurd (sole_owner ha hv he hcount hb hw he' hfr) hne)
  have hmem : ∀ b ∈ R, ∀ w < userPages, ∀ e', s.leaf b w = some e' →
      (s.setEntry pt (v % 512) ⟨e.frame, ownFlags e.flags⟩).mem e'.frame = s.mem e'.frame := by
    intro b hb w hw e' he'
    exact mem_setEntry_ne (fun hx => h.leafTab b hb w hw e' he' a ha _ (tabPath_ptPath v) (hx ▸ hpt))
  refine ⟨sh, fun f => ?_, l, hmem a ha v hv e he, fun b hb w hw hne => page_congr (lo b hb w hw hne) (hmem b hb w hw), rfl⟩
  have hup := mapCount_update h.nodup ha hv lo f
  rw [he, l, pointsTo_some, pointsTo_some] at hup
  have := hc f
  show mapCount _ R f ≤ s.pmm.refcount f
  simp only at hup
  omega

/-- **Shared**: the page moves to a fresh frame with the same bytes, and the old frame loses one reference. -/
theorem own_by_copy (hrc : s.pmm.refcount e.frame ≠ 1) {c : Nat} {z : Vm} (htook : Took s z c)
    (hzc : z.mem c = s.mem e.frame) : Shows s ((z.freeFrame e.frame).setEntry pt (v % 512) ⟨c, ownFlags e.flags⟩) R a v
    ⟨c, ownFlags e.flags⟩ (s.mem e.frame) := by
  obtain ⟨-, -, -, hpres⟩ := leaf_eq_some.1 he
  have hheld := h.leafHeld a ha v hv e he
  have hec : e.frame ≠ c := htook.ne hheld.used
  have hzrc : z.pmm.refcount e.frame = s.pmm.refcount e.frame := (htook.pmm e.frame hec).2
  have htwo : 2 ≤ s.pmm.refcount e.frame := by have := hheld.pos; omega
  have hfree := pmmFreeFrame_spec z.pmm e.frame (htook.heldFrame hheld)
  -- every frame that was held before the free still is
  set r := z.freeFrame e.frame
  have hstay : ∀ f, z.pmm.Held f → r.pmm.Held f := by
    intro f hf
    obtain ⟨h1, h2⟩ := hfree f
    refine ⟨?_, ?_, ?_⟩
    · show f < (pmmFreeFrame z.pmm e.frame).nframes
      rw [pmmFreeFrame_nframes]; exact hf.lt
    · show (pmmFreeFrame z.pmm e.frame).used f = true
      rw [h2]
      split
      · rw [decide_eq_true_iff, hzrc]; omega
      · exact hf.used
    · show 1 ≤ (pmmFreeFrame z.pmm e.frame).refcount f
      rw [h1]
      split
      · omega
      · exact hf.pos
  have shz := htook.shape h
  have hlz : ∀ b ∈ R, ∀ w, z.leaf b w = s.leaf b w := fun b hb w => htook.leaf h hb w
  have hez : z.leaf a v = some e := by rw [hlz a ha v, he]
  have sh2 : Shape r R := by
    refine shz.of_frame (fun _ _ _ _ _ _ => rfl) rfl (pmmFreeFrame_nframes _ _) (fun b hb p t hp ht => ?_)
      (fun b hb w hw e' he' => hstay _ (shz.leafHeld b hb w hw e' he')) (hstay _ shz.kern)
    refine ⟨hstay t (shz.tabHeld b hb p t hp ht), ?_⟩
    show (pmmFreeFrame z.pmm e.frame).refcount t = 1
    rw [(hfree t).1, if_neg (fun (hx : t = e.frame) => shz.leafTab a ha v hv e hez b hb p hp (hx ▸ ht))]
    exact shz.tabRc b hb p t hp ht
  obtain ⟨hf1, hf2, hf3⟩ := htook.fresh h
  have hptz : follow r.child a (ptPath v) = some pt := by
    show follow z.child a (ptPath v) = some pt
    rw [htook.follow h ha (tabPath_ptPath v), hpt]
  obtain ⟨sh, l, lo, -⟩ := sh2.set_leaf ha hv hptz ⟨c, ownFlags e.flags⟩
    (by unfold present; rw [ownFlags_present]; exact hpres)
    (by
      unfold user rw cow
      rw [ownFlags_user, ownFlags_rw, ownFlags_cow]
      exact ⟨(h.leafFlags a ha v hv e he).1, rfl⟩)
    (hstay c htook.heldNew) hf1 hf3 (fun w hw _ e' he' => hf2 a ha w hw e' he')
    (fun b hb w hw _ e' he' hfr => absurd hfr (hf2 b hb w hw e' he'))
  have hcpt : c ≠ pt := fun hx => hf1 a ha _ (tabPath_ptPath v) (hx ▸ hptz)
  have hmem : ∀ b ∈ R, ∀ w < userPages, ∀ e', s.leaf b w = some e' →
      (r.setEntry pt (v % 512) ⟨c, ownFlags e.flags⟩).mem e'.frame = s.mem e'.frame := by
    intro b hb w hw e' he'
    rw [mem_setEntry_ne (fun (hx : e'.frame = pt) =>
      h.leafTab b hb w hw e' he' a ha _ (tabPath_ptPath v) (hx ▸ hpt))]
    exact htook.mem _ (htook.ne (h.leafHeld b hb w hw e' he').used)
  refine ⟨sh, fun f => ?_, l, ?_, fun b hb w hw hne => page_congr ((lo b hb w hw hne).trans (hlz b hb w)) (hmem b hb w hw),
    htook.kpml4⟩
  · have hup := mapCount_update h.nodup ha hv (fun b hb w hw hne => (lo b hb w hw hne).trans (hlz b hb w)) f
    rw [he, l, pointsTo_some, pointsTo_some] at hup
    have hcf := hc f
    show mapCount _ R f ≤ (pmmFreeFrame z.pmm e.frame).refcount f
    rw [(hfree f).1]
    by_cases hfe : f = e.frame
    · subst hfe
      rw [if_pos rfl, if_neg (Ne.symm hec)] at hup
      rw [if_pos rfl, hzrc]
      omega
    rw [if_neg (Ne.symm hfe)] at hup
    rw [if_neg hfe]
    by_cases hfc : f = c
    · subst hfc
      rw [htook.rcNew]
      have hz : mapCount s R f = 0 := mapCount_eq_zero (fun b hb w hw e' he' => by
        rw [← hlz b hb w] at he'; exact hf2 b hb w hw e' he')
      simp only [if_true] at hup
      omega
    · rw [if_neg (Ne.symm hfc)] at hup
      rw [(htook.pmm f hfc).2]
      omega
  · show (r.setEntry pt (v % 512) ⟨c, ownFlags e.flags⟩).mem c = _
    rw [mem_setEntry_ne hcpt]
    exact hzc

end

end CowFault

/-! ## A whole access -/

def stackWindow (va low : Nat) : Bool :=
  decide (low > USTACK_LIMIT) && decide (va / 4096 * 4096 < low) && decide (va / 4096 * 4096 ≥ USTACK_LIMIT)

/-- What an access does to one address space, as its user sees it: a mapped page is there, a page of the stack window is
created with zeroes, anything else is fatal.  The answer is the new `stack_low` and the bytes of the page. -/
def accessPage (page : Option (Nat → UInt8)) (va low : Nat) : Option (Nat × (Nat → UInt8)) :=
  match page with
  | some p => some (low, p)
  | none => if stackWindow va low then some (va / 4096 * 4096, fun _ => 0) else none

section Access

variable {s : Vm} {R : List Nat} {a va : Nat}

theorem handler_missing (h : Shape s R) (ha : a ∈ R) (w : Bool) (low : Nat) : vmmPageFaultHandler s a va false w low =
      if stackWindow va low then
        if s.allocFrame.1 = 0 then (s.allocFrame.2, none)
        else ((vmmMapPageInto (s.allocFrame.2.setFrame s.allocFrame.1 (fun _ => 0)) a (va / 4096 * 4096) s.allocFrame.1
          (PAGE_RW ||| PAGE_USER)).1, some (va / 4096 * 4096)) else (s, none) := by
  obtain ⟨h0, hk⟩ := h.root a ha
  unfold vmmPageFaultHandler stackWindow
  simp only [h0, hk, ne_eq, not_false_eq_true, decide_true, Bool.not_false, Bool.true_and, Bool.false_and, Bool.false_eq_true,
    if_false]

theorem vmmPageFaultHandler_failed (s : Vm) (a va : Nat) (p w : Bool) (low : Nat)
    (h : (vmmPageFaultHandler s a va p w low).1.pmm.failed = false) : s.pmm.failed = false := by
  unfold vmmPageFaultHandler at h
  simp only at h
  split at h
  · split at h
    · exact pmmAllocFrame_failed h
    · exact pmmAllocFrame_failed (vmmMapPageInto_failed _ _ _ _ _ h)
  split at h
  · split at h
    · exact h
    · split at h
      · exact h
      · split at h
        · exact h
        · split at h
          · exact h
          · split at h
            · exact h
            · split at h
              · exact pmmAllocFrame_failed h
              · exact pmmAllocFrame_failed ((pmmFreeFrame_failed _ _).symm.trans h)
  · exact h

theorem handler_protection (h : Shape s R) (ha : a ∈ R) (hva : va / 4096 < userPages) {pt : Nat} {e : Pte}
    (hpt : follow s.child a (ptPath (va / 4096)) = some pt) (he : s.leaf a (va / 4096) = some e) (hcow : e.cow = true)
    (low : Nat) : vmmPageFaultHandler s a va true true low =
      if s.pmm.refcount e.frame = 1 then (s.setEntry pt (va / 4096 % 512) ⟨e.frame, ownFlags e.flags⟩, some low)
      else if s.allocFrame.1 = 0 then (s.allocFrame.2, none)
      else (((s.allocFrame.2.setFrame s.allocFrame.1 (s.mem e.frame)).freeFrame e.frame).setEntry pt (va / 4096 % 512)
        ⟨s.allocFrame.1, ownFlags e.flags⟩, some low) := by
  obtain ⟨h0, hk⟩ := h.root a ha
  have hw := walk_cases h ha hva
  simp only at hw
  rw [hpt] at hw
  obtain ⟨hf, d4, d3, d2⟩ := hw.resolve_left (fun hc => by cases hc.1)
  obtain ⟨t, ht, hent, hpres⟩ := leaf_eq_some.1 he
  obtain rfl : pt = t := by rw [hpt] at ht; exact some.inj ht
  have hlt : e.frame < s.pmm.nframes := (h.leafHeld a ha _ hva e he).lt
  rw [← (ix_eq va).2.2] at hent ⊢
  unfold vmmPageFaultHandler pmmRefcount
  simp only [h0, hk, ne_eq, not_false_eq_true, decide_true, Bool.not_true, Bool.and_true, Bool.false_and,
    Bool.false_eq_true, if_false, if_true, d4.1, d3.1, d2.1, d2.2.2.2, Bool.or_self, ← some.inj hf, hent, hpres, hcow, hlt]
  rfl

/-- **A page mapped on a fresh frame**, in place of whatever it showed, shows the bytes of that frame. -/
theorem map_fresh (h : Shape s R) (hc : Counted s R) (ha : a ∈ R) (hva : va / 4096 < userPages)
    {c : Nat} {z : Vm} {p : Nat → UInt8} (htook : Took s z c) (hzc : z.mem c = p)
    (hok : (vmmMapPageInto z a va c (PAGE_RW ||| PAGE_USER)).1.pmm.failed = false) :
    Shows s (vmmMapPageInto z a va c (PAGE_RW ||| PAGE_USER)).1 R a (va / 4096)
      ⟨c, PAGE_RW ||| PAGE_USER ||| PAGE_PRESENT⟩ p := by
  obtain ⟨hf1, hf2, -⟩ := htook.fresh h
  have hlz : ∀ b ∈ R, ∀ w, z.leaf b w = s.leaf b w := fun b hb w => htook.leaf h hb w
  have m := htook.mapped h ha hva (by decide) (by decide) (vmmMapPageInto_true hok)
  generalize (vmmMapPageInto z a va c (PAGE_RW ||| PAGE_USER)).1 = s2 at *
  have hcz := htook.counted h hc
  refine ⟨m.shape, fun f => ?_, m.self, ?_, fun b hb w hw hne => page_congr ((m.leaf b hb w hw hne).trans (hlz b hb w)) ?_,
    m.kpml4.trans htook.kpml4⟩
  · have hup := mapCount_update h.nodup ha hva m.leaf f
    rw [m.self, pointsTo_some] at hup
    by_cases hcf : c = f
    · subst hcf
      rw [(m.held c htook.heldNew.used).2, htook.rcNew]
      rw [mapCount_eq_zero hf2, if_pos rfl] at hup
      omega
    rw [if_neg hcf] at hup
    refine (by omega : mapCount s2 R f ≤ mapCount z R f).trans ?_
    cases hu : z.pmm.used f with
    | true => rw [(m.held f hu).2]; exact hcz f
    | false =>
      rw [mapCount_eq_zero ((htook.shape h).fresh hu).2.1]
      exact Nat.zero_le _
  · show s2.mem c = _
    rw [m.mem c htook.heldNew.used (fun p hp => hf1 a ha p hp), hzc]
  · intro e' he'
    have hu := h.leafHeld b hb w hw e' he'
    rw [m.mem e'.frame (htook.heldFrame hu).used (fun p hp => by
      rw [htook.follow h ha hp]; exact h.leafTab b hb w hw e' he' a ha p hp), htook.mem _ (htook.ne hu.used)]

theorem userAccess_of_fault {w p : Bool} (low : Nat) (hva : va < 2 ^ 39) (hf : hwTranslate s a va w = .fault p) :
    (userAccess s a va w low).1 = (vmmPageFaultHandler s a va p w low).1 ∧
    (∀ s', vmmPageFaultHandler s a va p w low = (s', none) → userAccess s a va w low = (s', none)) ∧
    (∀ s' low' f, vmmPageFaultHandler s a va p w low = (s', some low') → hwTranslate s' a va w = .ok f →
      userAccess s a va w low = (s', some (low', f))) := by
  unfold userAccess
  rw [if_pos hva, hf]
  refine ⟨?_, fun s' hs' => by simp only [hs'], fun s' low' f hs' hok => by simp only [hs', hok]⟩
  cases hh : vmmPageFaultHandler s a va p w low with | mk s' o =>
  cases o with
  | none => simp only [hh]
  | some low' =>
    simp only [hh]
    split <;> rfl

/-- **A user-mode access**, with every allocation it makes successful: it gets the page its user expects, and after a
write access, or when the page is new, the page is writable. -/
theorem userAccess_spec (h : Shape s R) (hc : Counted s R) (ha : a ∈ R) (hva : va < 2 ^ 39) (w : Bool) (low : Nat)
    (hok : (userAccess s a va w low).1.pmm.failed = false) : match accessPage (s.page a (va / 4096)) va low with
    | none => userAccess s a va w low = (s, none)
    | some (low', p) => ∃ s' e, userAccess s a va w low = (s', some (low', e.frame)) ∧ Shows s s' R a (va / 4096) e p ∧
        (w = true ∨ s.leaf a (va / 4096) = none → e.rw = true) := by
  have hv : va / 4096 < userPages := by unfold userPages; omega
  have htr := hwTranslate_eq h ha hv w
  unfold Vm.page accessPage
  cases he : s.leaf a (va / 4096) with
  | none =>
    simp only [he] at htr
    obtain ⟨hfst, hpanic, hret⟩ := userAccess_of_fault low hva htr
    rw [hfst, handler_missing h ha] at hok
    rw [handler_missing h ha] at hpanic hret
    simp only [map_none]
    cases hwin : stackWindow va low with
    | false =>
      simp only [Bool.false_eq_true, if_false]
      rw [hwin] at hpanic
      exact hpanic s (by simp only [Bool.false_eq_true, if_false])
    | true =>
      simp only [hwin, if_true] at hok hret ⊢
      have hok1 : s.allocFrame.2.pmm.failed = false := by
        split at hok
        · exact hok
        · exact vmmMapPageInto_failed (s.allocFrame.2.setFrame s.allocFrame.1 (fun _ => 0)) _ _ _ _ hok
      obtain ⟨h0, htook⟩ := took_allocFrame hok1 (fun _ => 0)
      have hzc : (s.allocFrame.2.setFrame s.allocFrame.1 (fun _ => 0)).mem s.allocFrame.1 = fun _ => 0 := mem_setFrame
      rw [if_neg h0] at hok hret
      generalize s.allocFrame.1 = c at *
      generalize s.allocFrame.2.setFrame c (fun _ => 0) = z at *
      have hvd : va / 4096 * 4096 / 4096 = va / 4096 := by omega
      have hs := map_fresh h hc ha (by rw [hvd]; exact hv) htook hzc hok
      rw [hvd] at hs
      have hrw : rw ⟨c, PAGE_RW ||| PAGE_USER ||| PAGE_PRESENT⟩ = true :=
        (by decide : hasFlag (PAGE_RW ||| PAGE_USER ||| PAGE_PRESENT) PAGE_RW = true)
      refine ⟨_, _, hret _ _ _ rfl ?_, hs, fun _ => hrw⟩
      rw [hwTranslate_eq hs.shape ha hv w, hs.leaf]
      simp only [hrw, Bool.or_true, if_true]
  | some e =>
    simp only [he] at htr
    simp only [map_some]
    by_cases hallow : (!w || e.rw) = true
    · simp only [hallow, if_true] at htr
      refine ⟨s, e, by unfold userAccess; simp only [if_pos hva, htr], ⟨h, hc, he, rfl, fun _ _ _ _ _ => rfl, rfl⟩, fun hw => ?_⟩
      rcases hw with rfl | hw
      · exact hallow
      · cases hw
    · simp only [hallow, Bool.false_eq_true, if_false] at htr
      simp only [Bool.or_eq_true, Bool.not_eq_true', not_or, Bool.not_eq_false, Bool.not_eq_true] at hallow
      obtain ⟨hw, hrw⟩ := hallow
      subst hw
      have hcow : e.cow = true := by
        have := (h.leafFlags a ha _ hv e he).2
        rw [hrw] at this
        cases hx : e.cow with
        | true => rfl
        | false => rw [hx] at this; cases this
      obtain ⟨pt, hpt, -, -⟩ := leaf_eq_some.1 he
      obtain ⟨hfst, -, hret⟩ := userAccess_of_fault low hva htr
      rw [hfst, handler_protection h ha hv hpt he hcow] at hok
      rw [handler_protection h ha hv hpt he hcow] at hret
      by_cases hrc : s.pmm.refcount e.frame = 1
      · rw [if_pos hrc] at hret
        have hs := own_in_place h hc ha hv hpt he hrc
        refine ⟨_, _, hret _ _ _ rfl ?_, hs, fun _ => ownFlags_rw e.flags⟩
        rw [hwTranslate_eq hs.shape ha hv true, hs.leaf]
        simp only [show rw ⟨e.frame, ownFlags e.flags⟩ = true from ownFlags_rw e.flags, Bool.or_true, if_true]
      · rw [if_neg hrc] at hok hret
        have hok1 : s.allocFrame.2.pmm.failed = false := by
          split at hok
          · exact hok
          · rw [← pmmFreeFrame_failed _ e.frame]; exact hok
        obtain ⟨h0, htook⟩ := took_allocFrame hok1 (s.mem e.frame)
        have hzc : (s.allocFrame.2.setFrame s.allocFrame.1 (s.mem e.frame)).mem s.allocFrame.1 = s.mem e.frame :=
          mem_setFrame
        rw [if_neg h0] at hret
        generalize s.allocFrame.1 = c at *
        generalize s.allocFrame.2.setFrame c (s.mem e.frame) = z at *
        have hs := own_by_copy h hc ha hv hpt he hrc htook hzc
        refine ⟨_, _, hret _ _ _ rfl ?_, hs, fun _ => ownFlags_rw e.flags⟩
        rw [hwTranslate_eq hs.shape ha hv true, hs.leaf]
        simp only [show rw ⟨c, ownFlags e.flags⟩ = true from ownFlags_rw e.flags, Bool.or_true, if_true]

end Access

section SetByte

variable {s : Vm} {R : List Nat} {a v o : Nat} {b : UInt8} {e : Pte}

theorem Shape.setByte (h : Shape s R) (ha : a ∈ R) (hv : v < userPages) (he : s.leaf a v = some e) :
    Shape (s.setByte e.frame o b) R ∧ ∀ c ∈ R, ∀ w, (s.setByte e.frame o b).leaf c w = s.leaf c w := by
  have hmt : ∀ c ∈ R, ∀ p t, TabPath p → follow s.child c p = some t → (s.setByte e.frame o b).mem t = s.mem t :=
    fun c hcR p t hp ht => mem_setFrame_ne (fun hx => h.leafTab a ha v hv e he c hcR p hp (hx ▸ ht))
  exact ⟨h.of_frame hmt rfl rfl (fun c hcR p t hp ht => ⟨h.tabHeld c hcR p t hp ht, h.tabRc c hcR p t hp ht⟩) h.leafHeld h.kern,
    fun c hcR w => Shape.leaf_of_tabs hmt hcR w⟩

theorem Counted.setByte (hc : Counted s R) (h : Shape s R) (ha : a ∈ R) (hv : v < userPages) (he : s.leaf a v = some e) :
    Counted (s.setByte e.frame o b) R := by
  intro f
  have hm : mapCount (s.setByte e.frame o b) R f = mapCount s R f := mapCount_congr f (fun c hcR w _ =>
    congrArg _ ((h.setByte ha hv he).2 c hcR w))
  rw [hm]
  exact hc f

theorem Sound.setByte (h : Sound s R) (ha : a ∈ R) (hv : v < userPages) (he : s.leaf a v = some e) :
    Sound (s.setByte e.frame o b) R :=
  ⟨(h.shape.setByte ha hv he).1, h.counted.setByte h.shape ha hv he⟩

theorem setByte_spec (h : Shape s R) (hc : Counted s R) (ha : a ∈ R) (hv : v < userPages) (he : s.leaf a v = some e)
    (hrw : e.rw = true) : Shows s (s.setByte e.frame o b) R a v e (fun x => if x = o then b else s.mem e.frame x) := by
  obtain ⟨hs, hl⟩ := h.setByte (o := o) (b := b) ha hv he
  refine ⟨hs, hc.setByte h ha hv he, by rw [hl a ha v, he], mem_setFrame,
    fun c hcR w hw hne => page_congr (hl c hcR w) (fun e' he' => ?_), rfl⟩
  exact mem_setFrame_ne (fun hx => hne (h.excl a ha v hv e he hrw c hcR w hw e' he' hx))

end SetByte

end Noxis
