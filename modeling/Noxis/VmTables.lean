import Noxis.Vmm
/-!
# VmTables — the page tables of a set of address spaces, as a forest

`Shape s R` is what every vmm operation keeps of the address spaces `R` (their PML4 frames): below `PML4[0]` no table is
shared or reached twice, every table is an allocated frame with one reference, every leaf maps an allocated frame that is
no table, and a leaf is either writable, and then the only leaf of its frame, or marked copy-on-write.  The two frame
lemmas, `Shape.of_frame` (the tables are not touched) and `Shape.set_leaf` (one leaf is), carry every proof about the
loops.
-/
namespace Noxis

open Option Radix BitVec Vm Pte

/-! ## Flag bits -/

section
variable (fl : Flags)
include fl

theorem hasFlag_twoPow (k : Nat) (hk : k < 12) : hasFlag fl (twoPow 12 k) = fl.getLsbD k := by
  unfold hasFlag
  rw [and_twoPow]
  cases h : fl.getLsbD k with
  | true =>
    simp only [if_true, bne_iff_ne, ne_eq]
    intro hc
    have := congrArg (fun x => getLsbD x k) hc
    simp [hk] at this
  | false => simp

theorem hasFlag_present : hasFlag fl PAGE_PRESENT = fl.getLsbD 0 := hasFlag_twoPow fl 0 (by decide)
theorem hasFlag_rw : hasFlag fl PAGE_RW = fl.getLsbD 1 := hasFlag_twoPow fl 1 (by decide)
theorem hasFlag_user : hasFlag fl PAGE_USER = fl.getLsbD 2 := hasFlag_twoPow fl 2 (by decide)
theorem hasFlag_ps : hasFlag fl PAGE_PS = fl.getLsbD 7 := hasFlag_twoPow fl 7 (by decide)
theorem hasFlag_cow : hasFlag fl PAGE_COW = fl.getLsbD 9 := hasFlag_twoPow fl 9 (by decide)

theorem cowFlags_present : hasFlag (cowFlags fl) PAGE_PRESENT = hasFlag fl PAGE_PRESENT := by
  rw [hasFlag_present, hasFlag_present]; simp [cowFlags, PAGE_RW, PAGE_COW]

theorem cowFlags_user : hasFlag (cowFlags fl) PAGE_USER = hasFlag fl PAGE_USER := by
  rw [hasFlag_user, hasFlag_user]; simp [cowFlags, PAGE_RW, PAGE_COW]

theorem cowFlags_rw : hasFlag (cowFlags fl) PAGE_RW = false := by
  rw [hasFlag_rw]; simp [cowFlags, PAGE_RW, PAGE_COW]

theorem cowFlags_cow : hasFlag (cowFlags fl) PAGE_COW = true := by
  rw [hasFlag_cow]; simp [cowFlags, PAGE_RW, PAGE_COW]

theorem present_restored (h : hasFlag fl PAGE_PRESENT = true) :
    (fl &&& ~~~PAGE_PRESENT) ||| PAGE_PRESENT = fl := by
  rw [hasFlag_present] at h
  apply eq_of_getLsbD_eq
  intro i hi
  by_cases h0 : i = 0
  · subst h0; simp [PAGE_PRESENT, h]
  rw [getLsbD_or, getLsbD_and, getLsbD_not]
  have : PAGE_PRESENT.getLsbD i = false := by
    have := getLsbD_twoPow (w := 12) 0 i
    rw [show PAGE_PRESENT = twoPow 12 0 from rfl, this]
    simp [Ne.symm h0]
  rw [this]; simp [hi]

theorem present_kept (h : hasFlag fl PAGE_PRESENT = true) : fl ||| PAGE_PRESENT = fl := by
  conv => lhs; rw [← present_restored fl h]
  rw [BitVec.or_assoc, BitVec.or_self, present_restored fl h]

end

theorem Pte.ofWord_toWord (e : Pte) : ofWord e.toWord = e := by
  unfold ofWord toWord
  have := e.flags.isLt
  have h1 : (e.frame * 4096 + e.flags.toNat) / 4096 = e.frame := by omega
  rw [h1]
  congr 1
  apply eq_of_toNat_eq
  simp only [toNat_ofNat]
  omega

/-! ## Entries and frames -/

theorem entry_congr {s s' : Vm} {t i : Nat} (h : s'.mem t = s.mem t) : s'.entry t i = s.entry t i := by
  unfold entry; rw [h]

theorem mem_setFrame {s : Vm} {t : Nat} {b : Nat → UInt8} : (s.setFrame t b).mem t = b := by simp [setFrame]

theorem mem_setFrame_ne {s : Vm} {t f : Nat} {b : Nat → UInt8} (h : f ≠ t) : (s.setFrame t b).mem f = s.mem f := by
  simp [setFrame, h]

theorem mem_setEntry_ne {s : Vm} {t i f : Nat} {e : Pte} (h : f ≠ t) : (s.setEntry t i e).mem f = s.mem f :=
  mem_setFrame_ne h

theorem entry_setEntry {s : Vm} {t i : Nat} {e : Pte} (he : e.frame < 2 ^ 52) : (s.setEntry t i e).entry t i = e := by
  unfold entry setEntry
  rw [mem_setFrame, leRead_leWrite, Nat.mod_eq_of_lt, ofWord_toWord]
  unfold toWord
  have := e.flags.isLt
  omega

theorem entry_setEntry_ne {s : Vm} {t i t' i' : Nat} {e : Pte} (h : ¬ (t' = t ∧ i' = i)) :
    (s.setEntry t i e).entry t' i' = s.entry t' i' := by
  by_cases ht : t' = t
  · subst ht
    have hi : i' ≠ i := fun hc => h ⟨rfl, hc⟩
    unfold entry setEntry
    rw [mem_setFrame, leRead_leWrite_of_disjoint]
    omega
  · exact entry_congr (mem_setEntry_ne ht)

theorem entry_zeroTable (s : Vm) (t i : Nat) : (s.zeroTable t).entry t i = ⟨0, 0⟩ := by
  unfold entry zeroTable
  rw [mem_setFrame, leRead_zero]
  rfl

/-! ## Paths -/

def Vm.child (s : Vm) (t i : Nat) : Option Nat := if (s.entry t i).present then some (s.entry t i).frame else none

@[irreducible] def userPages : Nat := 2 ^ 27

/-- A path to a table below `PML4[0]`: the PML4 itself, its PDPT, a PD or a PT. -/
def TabPath (p : List Nat) : Prop := p.length ≤ 3 ∧ ∀ i, p.head? = some i → i = 0

def ptPath (v : Nat) : List Nat := [0, v / 2 ^ 18 % 512, v / 2 ^ 9 % 512]

/-- The present leaf entry of page `v` (its virtual address divided by 4096) in the address space `a`. -/
def Vm.leaf (s : Vm) (a v : Nat) : Option Pte :=
  (follow s.child a (ptPath v)).bind (fun t => if (s.entry t (v % 512)).present then some (s.entry t (v % 512)) else none)

theorem tabPath_nil : TabPath [] := ⟨by simp, fun i h => by cases h⟩

theorem tabPath_closed : Closed TabPath := by
  intro p i rest h
  obtain ⟨hl, hh⟩ := h
  refine ⟨by simp at hl; omega, fun j hj => hh j ?_⟩
  cases p with
  | nil => cases hj
  | cons x p => exact hj

theorem tabPath_ptPath (v : Nat) : TabPath (ptPath v) := ⟨by simp [ptPath], fun i h => by simp [ptPath] at h; omega⟩

theorem ptPath_inj (v w : Nat) (hv : v < userPages) (hw : w < userPages) (h : ptPath v = ptPath w)
    (hm : v % 512 = w % 512) : v = w := by
  unfold userPages at hv hw
  simp only [ptPath, List.cons.injEq, and_true, true_and] at h
  omega

theorem ix4_eq (va : Nat) (h : va / 4096 < userPages) : ix4 va = 0 := by
  unfold userPages at h; unfold ix4; omega

theorem ix_eq (va : Nat) : ix3 va = va / 4096 / 2 ^ 18 % 512 ∧ ix2 va = va / 4096 / 2 ^ 9 % 512 ∧ ix1 va = va / 4096 % 512 := by
  unfold ix3 ix2 ix1; omega

theorem ptPath_va (va : Nat) : ptPath (va / 4096) = [0, ix3 va, ix2 va] := by
  obtain ⟨h3, h2, -⟩ := ix_eq va
  rw [ptPath, h3, h2]

variable {s : Vm} {t a v : Nat}

theorem child_eq_some {i c : Nat} : s.child t i = some c ↔ (s.entry t i).present = true ∧ (s.entry t i).frame = c := by
  unfold child
  by_cases h : (s.entry t i).present = true <;> simp [h]

theorem child_congr {s s' : Vm} {t i : Nat} (h : s'.entry t i = s.entry t i) : s'.child t i = s.child t i := by
  unfold child; rw [h]

theorem leaf_eq_some {e : Pte} :
    s.leaf a v = some e ↔ ∃ t, follow s.child a (ptPath v) = some t ∧ s.entry t (v % 512) = e ∧ e.present = true := by
  unfold leaf
  cases hf : follow s.child a (ptPath v) with
  | none => simp
  | some t =>
    simp only [bind_some, some.injEq, exists_eq_left']
    by_cases hp : (s.entry t (v % 512)).present = true
    · rw [if_pos hp, some.injEq]
      exact ⟨fun h => ⟨h, h ▸ hp⟩, fun h => h.1⟩
    · rw [if_neg hp]
      exact ⟨fun h => (by cases h), fun h => absurd (h.1 ▸ h.2) hp⟩

theorem ptPath_mk (i3 i2 i1 : Nat) (h3 : i3 < 512) (h2 : i2 < 512) (h1 : i1 < 512) :
    ptPath (i3 * 2 ^ 18 + i2 * 2 ^ 9 + i1) = [0, i3, i2] ∧ (i3 * 2 ^ 18 + i2 * 2 ^ 9 + i1) % 512 = i1 := by
  unfold ptPath
  have e1 : (i3 * 2 ^ 18 + i2 * 2 ^ 9 + i1) / 2 ^ 18 % 512 = i3 := by omega
  have e2 : (i3 * 2 ^ 18 + i2 * 2 ^ 9 + i1) / 2 ^ 9 % 512 = i2 := by omega
  rw [e1, e2]
  exact ⟨rfl, by omega⟩

theorem leaf_of_missing (h : follow s.child a (ptPath v) = none) : s.leaf a v = none := by
  unfold leaf; rw [h, bind_none]

theorem leaf_of_follow (h : follow s.child a (ptPath v) = some t) :
    s.leaf a v = if (s.entry t (v % 512)).present then some (s.entry t (v % 512)) else none := by
  unfold leaf; rw [h, bind_some]

/-! ## The shape of a set of address spaces -/

structure Shape (s : Vm) (R : List Nat) : Prop where
  nodup : R.Nodup
  nframes : s.pmm.nframes ≤ MAX_FRAMES
  unshared : Unshared s.child R TabPath
  tabHeld : ∀ a ∈ R, ∀ p t, TabPath p → follow s.child a p = some t → s.pmm.Held t
  tabRc : ∀ a ∈ R, ∀ p t, TabPath p → follow s.child a p = some t → s.pmm.refcount t = 1
  tabFlags : ∀ a ∈ R, ∀ p t i, TabPath (p ++ [i]) → follow s.child a p = some t → (s.entry t i).present = true →
    (s.entry t i).user = true ∧ (s.entry t i).rw = true ∧ (s.entry t i).ps = false
  leafHeld : ∀ a ∈ R, ∀ v < userPages, ∀ e, s.leaf a v = some e → s.pmm.Held e.frame
  leafTab : ∀ a ∈ R, ∀ v < userPages, ∀ e, s.leaf a v = some e → ∀ b ∈ R, ∀ p, TabPath p →
    follow s.child b p ≠ some e.frame
  leafFlags : ∀ a ∈ R, ∀ v < userPages, ∀ e, s.leaf a v = some e → e.user = true ∧ e.rw = !e.cow
  leafInj : ∀ a ∈ R, ∀ v < userPages, ∀ w < userPages, ∀ e e', s.leaf a v = some e → s.leaf a w = some e' →
    e.frame = e'.frame → v = w
  excl : ∀ a ∈ R, ∀ v < userPages, ∀ e, s.leaf a v = some e → e.rw = true → ∀ b ∈ R, ∀ w < userPages, ∀ e',
    s.leaf b w = some e' → e'.frame = e.frame → b = a ∧ w = v
  root : ∀ a ∈ R, a ≠ 0 ∧ a ≠ s.kpml4
  kern : s.pmm.Held s.kpml4
  kernTab : ∀ a ∈ R, ∀ p, TabPath p → follow s.child a p ≠ some s.kpml4
  kernLeaf : ∀ a ∈ R, ∀ v < userPages, ∀ e, s.leaf a v = some e → e.frame ≠ s.kpml4

namespace Shape

variable {s : Vm} {R : List Nat} {a : Nat}

theorem rootHeld (h : Shape s R) (ha : a ∈ R) : s.pmm.Held a := h.tabHeld a ha [] a tabPath_nil rfl

theorem held_lt (h : Shape s R) {f : Nat} (hf : s.pmm.Held f) : f < 2 ^ 52 := by
  have h1 := hf.lt
  have h2 := h.nframes
  unfold MAX_FRAMES at h2
  omega

variable {s' : Vm}

section

variable (hm : ∀ a ∈ R, ∀ p t, TabPath p → follow s.child a p = some t → s'.mem t = s.mem t) (ha : a ∈ R)
include hm ha

/-- **Memory outside the tables does not matter to the paths.** -/
theorem follow_of_tabs {q : List Nat} (hq : Inner TabPath q) : follow s'.child a q = follow s.child a q := by
  apply Radix.follow_congr
  intro q1 i rest t hq1 ht
  exact child_congr (entry_congr (hm a ha q1 t (hq q1 i rest hq1) ht))

theorem leaf_of_tabs (v : Nat) : s'.leaf a v = s.leaf a v := by
  unfold leaf
  rw [follow_of_tabs hm ha (tabPath_closed.inner (tabPath_ptPath v))]
  cases ht : follow s.child a (ptPath v) with
  | none => simp only [bind_none]
  | some t =>
    have he := entry_congr (i := v % 512) (hm a ha _ t (tabPath_ptPath v) ht)
    simp only [bind_some, he]

end

/-- A step that keeps the paths and the leaves keeps the shape, if the entries it stores to are still good and the frames
are still allocated. -/
theorem of_same (h : Shape s R) (hf : ∀ a ∈ R, ∀ p, TabPath p → follow s'.child a p = follow s.child a p)
    (hl : ∀ a ∈ R, ∀ v < userPages, s'.leaf a v = s.leaf a v)
    (hfl : ∀ a ∈ R, ∀ p t i, TabPath (p ++ [i]) → follow s.child a p = some t → (s'.entry t i).present = true →
      (s'.entry t i).user = true ∧ (s'.entry t i).rw = true ∧ (s'.entry t i).ps = false)
    (hk : s'.kpml4 = s.kpml4) (hn : s'.pmm.nframes = s.pmm.nframes)
    (htab : ∀ a ∈ R, ∀ p t, TabPath p → follow s.child a p = some t → s'.pmm.Held t ∧ s'.pmm.refcount t = 1)
    (hleaf : ∀ a ∈ R, ∀ v < userPages, ∀ e, s.leaf a v = some e → s'.pmm.Held e.frame)
    (hkern : s'.pmm.Held s.kpml4) : Shape s' R := by
  refine ⟨h.nodup, by rw [hn]; exact h.nframes, ?_, ?_, ?_, ?_, ?_, ?_, ?_, ?_, ?_, ?_, ?_, ?_, ?_⟩
  · intro r r' p p' t hr hr' hp hp' h1 h2
    rw [hf r hr p hp] at h1; rw [hf r' hr' p' hp'] at h2
    exact h.unshared r r' p p' t hr hr' hp hp' h1 h2
  · intro a ha p t hp h1
    rw [hf a ha p hp] at h1
    exact (htab a ha p t hp h1).1
  · intro a ha p t hp h1
    rw [hf a ha p hp] at h1
    exact (htab a ha p t hp h1).2
  · intro a ha p t i hpi h1
    rw [hf a ha p (tabPath_closed p i [] hpi)] at h1
    exact hfl a ha p t i hpi h1
  · intro a ha v hv e h1
    rw [hl a ha v hv] at h1
    exact hleaf a ha v hv e h1
  · intro a ha v hv e h1 b hb p hp
    rw [hl a ha v hv] at h1
    rw [hf b hb p hp]
    exact h.leafTab a ha v hv e h1 b hb p hp
  · intro a ha v hv e h1
    rw [hl a ha v hv] at h1
    exact h.leafFlags a ha v hv e h1
  · intro a ha v hv w hw e e' h1 h2
    rw [hl a ha v hv] at h1; rw [hl a ha w hw] at h2
    exact h.leafInj a ha v hv w hw e e' h1 h2
  · intro a ha v hv e h1 hrw b hb w hw e' h2
    rw [hl a ha v hv] at h1; rw [hl b hb w hw] at h2
    exact h.excl a ha v hv e h1 hrw b hb w hw e' h2
  · intro a ha; rw [hk]; exact h.root a ha
  · rw [hk]; exact hkern
  · intro a ha p hp
    rw [hf a ha p hp, hk]
    exact h.kernTab a ha p hp
  · intro a ha v hv e h1
    rw [hl a ha v hv] at h1
    rw [hk]
    exact h.kernLeaf a ha v hv e h1

/-- **The frame lemma**: a step that keeps the bytes of every table and keeps every table and leaf frame allocated keeps
the shape, the paths and the leaves. -/
theorem of_frame (h : Shape s R) (hm : ∀ a ∈ R, ∀ p t, TabPath p → follow s.child a p = some t → s'.mem t = s.mem t)
    (hk : s'.kpml4 = s.kpml4) (hn : s'.pmm.nframes = s.pmm.nframes)
    (htab : ∀ a ∈ R, ∀ p t, TabPath p → follow s.child a p = some t → s'.pmm.Held t ∧ s'.pmm.refcount t = 1)
    (hleaf : ∀ a ∈ R, ∀ v < userPages, ∀ e, s.leaf a v = some e → s'.pmm.Held e.frame)
    (hkern : s'.pmm.Held s.kpml4) : Shape s' R := by
  refine h.of_same (fun a ha q hq => follow_of_tabs hm ha (tabPath_closed.inner hq)) (fun a ha v _ => leaf_of_tabs hm ha v)
    (fun a ha p t i hpi ht => ?_) hk hn htab hleaf hkern
  rw [entry_congr (hm a ha p t (tabPath_closed p i [] hpi) ht)]
  exact h.tabFlags a ha p t i hpi ht

variable {R' : List Nat}

/-- **Fewer address spaces, or the same in another order**: what holds of a set of address spaces holds of a part of it. -/
theorem of_subset (h : Shape s R) (hnd : R'.Nodup) (hm : ∀ a ∈ R', a ∈ R) : Shape s R' := by
  refine ⟨hnd, h.nframes, ?_, ?_, ?_, ?_, ?_, ?_, ?_, ?_, ?_, ?_, h.kern, ?_, ?_⟩
  · intro r r' p p' t hr hr'; exact h.unshared r r' p p' t (hm r hr) (hm r' hr')
  · intro a ha; exact h.tabHeld a (hm a ha)
  · intro a ha; exact h.tabRc a (hm a ha)
  · intro a ha; exact h.tabFlags a (hm a ha)
  · intro a ha; exact h.leafHeld a (hm a ha)
  · intro a ha v hv e h1 b hb; exact h.leafTab a (hm a ha) v hv e h1 b (hm b hb)
  · intro a ha; exact h.leafFlags a (hm a ha)
  · intro a ha; exact h.leafInj a (hm a ha)
  · intro a ha v hv e h1 hrw b hb; exact h.excl a (hm a ha) v hv e h1 hrw b (hm b hb)
  · intro a ha; exact h.root a (hm a ha)
  · intro a ha; exact h.kernTab a (hm a ha)
  · intro a ha; exact h.kernLeaf a (hm a ha)

theorem perm (h : Shape s R) (hp : R.Perm R') : Shape s R' :=
  h.of_subset (hp.nodup_iff.1 h.nodup) (fun _ ha => hp.mem_iff.2 ha)

end Shape
end Noxis
