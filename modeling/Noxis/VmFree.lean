import Noxis.VmCount
/-!
# VmFree — what `vmm_free_user_space` drops

The loops free a list of frames one after the other: `freeList`.  A frame that is no table of the address space occurs in
it once for every leaf that maps it (`count_freeList`), so a reference count that was at least the number of leaves is
still at least the number of leaves that remain (`vmmFreeUserSpace_spec`).
-/
namespace Noxis

open List Option Radix

/-! ## Freeing a list of frames -/

theorem pmmFreeFrame_ne (p : Pmm) (f g : Nat) (h : f ≠ g) :
    (pmmFreeFrame p g).refcount f = p.refcount f ∧ (pmmFreeFrame p g).used f = p.used f := by
  unfold pmmFreeFrame Pmm.markFree
  split
  · exact ⟨rfl, rfl⟩
  · split <;> simp [h]

def Pmm.Has (p : Pmm) (f n : Nat) : Prop := f < p.nframes ∧ p.refcount f = n ∧ p.used f = decide (0 < n)

variable {p : Pmm} {f n a : Nat}

theorem Pmm.Held.has (h : p.Held f) : p.Has f (p.refcount f) := by
  refine ⟨h.lt, rfl, ?_⟩
  have := h.pos
  rw [h.used, eq_comm, decide_eq_true_iff]
  omega

theorem Pmm.Has.held (h : p.Has f n) (hn : 0 < n) : p.Held f :=
  ⟨h.1, by rw [h.2.2, decide_eq_true_iff]; exact hn, by rw [h.2.1]; exact hn⟩

theorem Pmm.Has.free (h : p.Has f n) (g : Nat) : (pmmFreeFrame p g).Has f (n - if g = f then 1 else 0) := by
  refine ⟨by rw [pmmFreeFrame_nframes]; exact h.1, ?_⟩
  by_cases hg : g = f
  · subst hg
    rw [if_pos rfl]
    by_cases hn : 0 < n
    · obtain ⟨h1, h2⟩ := pmmFreeFrame_spec p g (h.held hn) g
      rw [h1, h2, if_pos rfl, if_pos rfl, h.2.1]
      refine ⟨rfl, ?_⟩
      rw [decide_eq_decide]
      omega
    · obtain rfl : n = 0 := by omega
      have hu : p.used g = false := h.2.2
      unfold pmmFreeFrame
      rw [if_pos (.inr hu)]
      exact h.2
  · obtain ⟨h1, h2⟩ := pmmFreeFrame_ne p f g (Ne.symm hg)
    rw [h1, h2, if_neg hg]
    exact h.2

theorem Pmm.Has.freeAll {f : Nat} : ∀ (L : List Nat) {p : Pmm} {n : Nat}, p.Has f n →
    (L.foldl pmmFreeFrame p).Has f (n - L.count f)
  | [], _, _, h => h
  | g :: L, p, n, h => by
    have := Pmm.Has.freeAll L (h.free g)
    rw [foldl_cons, count_cons]
    by_cases hg : g = f
    · subst hg
      rw [if_pos rfl] at this
      rw [if_pos (beq_self_eq_true g), show n - (count g L + 1) = n - 1 - count g L by omega]
      exact this
    · rw [if_neg hg] at this
      rw [if_neg (by simpa using hg)]
      exact this

theorem foldl_free_nframes : ∀ (L : List Nat) (p : Pmm), (L.foldl pmmFreeFrame p).nframes = p.nframes
  | [], _ => rfl
  | g :: L, p => by rw [foldl_cons, foldl_free_nframes L, pmmFreeFrame_nframes]

theorem foldl_free_failed : ∀ (L : List Nat) (p : Pmm), (L.foldl pmmFreeFrame p).failed = p.failed
  | [], _ => rfl
  | g :: L, p => by rw [foldl_cons, foldl_free_failed L, pmmFreeFrame_failed]

theorem foldl_free_ne {f : Nat} : ∀ (L : List Nat) (p : Pmm), f ∉ L →
    (L.foldl pmmFreeFrame p).refcount f = p.refcount f ∧ (L.foldl pmmFreeFrame p).used f = p.used f
  | [], _, _ => ⟨rfl, rfl⟩
  | g :: L, p, h => by
    rw [mem_cons, not_or] at h
    obtain ⟨hrc, hu⟩ := foldl_free_ne L (pmmFreeFrame p g) h.2
    rw [foldl_cons, hrc, hu]
    exact pmmFreeFrame_ne p f g h.1

/-! ## The list an address space frees -/

def ptFrames (s : Vm) (pt : Nat) : List Nat := (List.range ENTRIES).flatMap (fun i =>
  if (s.entry pt i).present then [(s.entry pt i).frame] else [])

def pdFrames (s : Vm) (pd : Nat) : List Nat := (List.range ENTRIES).flatMap (fun i =>
  if !(s.entry pd i).present || (s.entry pd i).ps then [] else ptFrames s (s.entry pd i).frame ++ [(s.entry pd i).frame])

def pdptFrames (s : Vm) (pdpt : Nat) : List Nat := (List.range ENTRIES).flatMap (fun i =>
  if !(s.entry pdpt i).present then [] else pdFrames s (s.entry pdpt i).frame ++ [(s.entry pdpt i).frame])

/-- The frames `vmm_free_user_space` passes to `pmm_free_frame`, in order. -/
def freeList (s : Vm) (a : Nat) : List Nat :=
  (if (s.entry a 0).present then pdptFrames s (s.entry a 0).frame ++ [(s.entry a 0).frame] else []) ++ [a]

theorem foldl_flatMap_eq {α β γ : Type} (g : β → γ → β) (L : α → List γ) (step : β → α → β)
    (h : ∀ p i, step p i = (L i).foldl g p) : ∀ (l : List α) (p : β), l.foldl step p = (l.flatMap L).foldl g p
  | [], _ => rfl
  | i :: l, p => by
    rw [foldl_cons, flatMap_cons, foldl_append, h, foldl_flatMap_eq g L step h l]

theorem freePt_eq (s : Vm) (pt : Nat) (p : Pmm) : freePt s pt p = (ptFrames s pt).foldl pmmFreeFrame p := by
  refine foldl_flatMap_eq _ _ _ (fun p i => ?_) _ _
  split <;> rfl

theorem freePd_eq (s : Vm) (pd : Nat) (p : Pmm) : freePd s pd p = (pdFrames s pd).foldl pmmFreeFrame p := by
  refine foldl_flatMap_eq _ _ _ (fun p i => ?_) _ _
  simp only [freePt_eq]
  split
  · rfl
  · rw [foldl_append, foldl_cons, foldl_nil]

theorem freePdpt_eq (s : Vm) (pdpt : Nat) (p : Pmm) : freePdpt s pdpt p = (pdptFrames s pdpt).foldl pmmFreeFrame p := by
  refine foldl_flatMap_eq _ _ _ (fun p i => ?_) _ _
  simp only [freePd_eq]
  split
  · rfl
  · rw [foldl_append, foldl_cons, foldl_nil]

theorem vmmFreeUserSpace_eq (s : Vm) (a : Nat) (h0 : a ≠ 0) (hk : a ≠ s.kpml4) :
    vmmFreeUserSpace s a = { s with pmm := (freeList s a).foldl pmmFreeFrame s.pmm } := by
  unfold vmmFreeUserSpace freeList
  rw [if_neg (fun hc => hc.elim h0 hk), foldl_append]
  simp only [freePdpt_eq, foldl_cons, foldl_nil]
  split
  · rw [foldl_append, foldl_cons, foldl_nil]
  · rfl

theorem vmmFreeUserSpace_failed (s : Vm) (a : Nat) : (vmmFreeUserSpace s a).pmm.failed = s.pmm.failed := by
  by_cases h : a = 0 ∨ a = s.kpml4
  · unfold vmmFreeUserSpace
    rw [if_pos h]
  · rw [vmmFreeUserSpace_eq s a (fun hx => h (.inl hx)) (fun hx => h (.inr hx))]
    exact foldl_free_failed _ _

theorem vmmFreeUserSpace_mem (s : Vm) (a : Nat) : (vmmFreeUserSpace s a).mem = s.mem := by
  by_cases h : a = 0 ∨ a = s.kpml4
  · unfold vmmFreeUserSpace
    rw [if_pos h]
  · rw [vmmFreeUserSpace_eq s a (fun hx => h (.inl hx)) (fun hx => h (.inr hx))]

/-! ## How often a frame is in it -/

theorem count_flatMap_range (L : Nat → List Nat) (f n : Nat) :
    ((range n).flatMap L).count f = ∑ i ∈ Finset.range n, (L i).count f := by
  induction n with
  | zero => rfl
  | succ n ih =>
    rw [range_succ, flatMap_append, count_append, ih, Finset.sum_range_succ, flatMap_singleton]

theorem sum_range_mul (g : Nat → Nat) (m n : Nat) :
    ∑ v ∈ Finset.range (m * n), g v = ∑ i ∈ Finset.range m, ∑ j ∈ Finset.range n, g (i * n + j) := by
  induction m with
  | zero => rw [zero_mul]; rfl
  | succ m ih => rw [Nat.succ_mul, Finset.sum_range_add, ih, Finset.sum_range_succ]

section Count

variable {s : Vm} {R : List Nat} {a f : Nat} {i3 : Nat}

theorem count_ptFrames {i2 pt : Nat} (h3 : i3 < 512) (h2 : i2 < 512) (hpt : follow s.child a [0, i3, i2] = some pt) :
    (ptFrames s pt).count f = ∑ i1 ∈ Finset.range 512, pointsTo (s.leaf a (i3 * 2 ^ 18 + i2 * 2 ^ 9 + i1)) f := by
  unfold ptFrames
  rw [count_flatMap_range]
  refine Finset.sum_congr rfl (fun i1 hi1 => ?_)
  obtain ⟨hp, hmod⟩ := ptPath_mk i3 i2 i1 h3 h2 (Finset.mem_range.1 hi1)
  unfold Vm.leaf
  rw [hp, hpt, bind_some, hmod]
  split
  · rw [pointsTo_some, count_singleton]
    simp only [beq_iff_eq]
  · rfl

section

variable (h : Shape s R) (ha : a ∈ R) (hnt : ∀ p, TabPath p → follow s.child a p ≠ some f)
include h ha hnt

theorem count_pdFrames {pd : Nat} (h3 : i3 < 512) (hpd : follow s.child a [0, i3] = some pd) :
    (pdFrames s pd).count f = ∑ i2 ∈ Finset.range 512, ∑ i1 ∈ Finset.range 512,
    pointsTo (s.leaf a (i3 * 2 ^ 18 + i2 * 2 ^ 9 + i1)) f := by
  have t3 : ∀ j, TabPath ([0, i3] ++ [j]) := fun j => ⟨by simp, fun i hi => by simp at hi; omega⟩
  unfold pdFrames
  rw [count_flatMap_range]
  refine Finset.sum_congr rfl (fun i2 hi2 => ?_)
  have hi2 : i2 < 512 := Finset.mem_range.1 hi2
  have hnext : follow s.child a [0, i3, i2] = s.child pd i2 := by
    rw [show [0, i3, i2] = [0, i3] ++ [i2] from rfl, follow_snoc, hpd, bind_some]
  by_cases hp : (s.entry pd i2).present = true
  · have hps := (h.tabFlags a ha [0, i3] pd i2 (t3 i2) hpd hp).2.2
    have hf : follow s.child a [0, i3, i2] = some (s.entry pd i2).frame := by
      rw [hnext, child_eq_some]; exact ⟨hp, rfl⟩
    simp only [hp, hps, Bool.not_true, Bool.or_self, Bool.false_eq_true, if_false]
    rw [count_append, count_ptFrames h3 hi2 hf, count_singleton, if_neg, add_zero]
    simp only [beq_iff_eq]
    intro hc
    exact hnt _ (t3 i2) (hc ▸ hf)
  · have hnone : s.child pd i2 = none := by unfold Vm.child; rw [if_neg hp]
    simp only [hp, Bool.not_false, Bool.true_or, if_true, count_nil]
    symm
    refine Finset.sum_eq_zero (fun i1 hi1 => ?_)
    rw [leaf_of_missing, pointsTo_none]
    rw [(ptPath_mk i3 i2 i1 h3 hi2 (Finset.mem_range.1 hi1)).1, hnext, hnone]

/-- **A frame that is no table of `a`** is freed once for every leaf of `a` that maps it. -/
theorem count_freeList : (freeList s a).count f = leafCount s a f := by
  have t1 : TabPath ([] ++ [0]) := ⟨by simp, fun i hi => by simp at hi; omega⟩
  have t2 : ∀ j, TabPath ([0] ++ [j]) := fun j => ⟨by simp, fun i hi => by simp at hi; omega⟩
  have hself : (([a] : List Nat)).count f = 0 := by
    rw [count_singleton, if_neg]
    simp only [beq_iff_eq]
    intro hc
    exact hnt [] tabPath_nil (by rw [← hc]; rfl)
  unfold freeList
  rw [count_append, hself, add_zero]
  by_cases hp4 : (s.entry a 0).present = true
  swap
  · have hnone : s.child a 0 = none := by unfold Vm.child; rw [if_neg hp4]
    rw [if_neg hp4, count_nil, leafCount_empty (fun v _ => leaf_of_empty hnone v)]
  have hf4 : follow s.child a [0] = some (s.entry a 0).frame := by
    rw [follow, child_eq_some.2 ⟨hp4, rfl⟩]; rfl
  rw [if_pos hp4, count_append, count_singleton, if_neg, add_zero]
  swap
  · simp only [beq_iff_eq]
    intro hc
    exact hnt _ t1 (hc ▸ hf4)
  unfold leafCount pdptFrames
  rw [count_flatMap_range, show userPages = 512 * 2 ^ 18 by unfold userPages; rfl, sum_range_mul]
  refine Finset.sum_congr rfl (fun i3 hi3 => ?_)
  have hi3 : i3 < 512 := Finset.mem_range.1 hi3
  have hnext : follow s.child a [0, i3] = s.child (s.entry a 0).frame i3 := by
    rw [show [0, i3] = [0] ++ [i3] from rfl, follow_snoc, hf4, bind_some]
  by_cases hp3 : (s.entry (s.entry a 0).frame i3).present = true
  · have hf3 : follow s.child a [0, i3] = some (s.entry (s.entry a 0).frame i3).frame := by
      rw [hnext, child_eq_some]; exact ⟨hp3, rfl⟩
    simp only [hp3, Bool.not_true, Bool.false_eq_true, if_false]
    rw [count_append, count_pdFrames h ha hnt hi3 hf3, count_singleton, if_neg, add_zero]
    · rw [show (2 : Nat) ^ 18 = 512 * 2 ^ 9 from rfl, sum_range_mul]
      refine Finset.sum_congr rfl (fun i2 _ => Finset.sum_congr rfl (fun i1 _ => ?_))
      rw [add_assoc]
    · simp only [beq_iff_eq]
      intro hc
      exact hnt _ (t2 i3) (hc ▸ hf3)
  · have hnone : s.child (s.entry a 0).frame i3 = none := by unfold Vm.child; rw [if_neg hp3]
    simp only [hp3, Bool.not_false, if_true, count_nil]
    symm
    refine Finset.sum_eq_zero (fun j hj => ?_)
    have hj := Finset.mem_range.1 hj
    rw [leaf_of_missing, pointsTo_none]
    have hpt : ptPath (i3 * 2 ^ 18 + j) = [0, i3] ++ [j / 2 ^ 9] := by
      unfold ptPath
      rw [show (i3 * 2 ^ 18 + j) / 2 ^ 18 % 512 = i3 by omega,
        show (i3 * 2 ^ 18 + j) / 2 ^ 9 % 512 = j / 2 ^ 9 by omega]
      rfl
    rw [hpt, follow_snoc, hnext, hnone, bind_none]

end

end Count

/-! ## The address space is gone -/

variable {s s' : Vm}

theorem leaf_of_mem (h : s'.mem = s.mem) : s'.leaf = s.leaf ∧ s'.child = s.child := by
  have he : s'.entry = s.entry := by funext t i; exact entry_congr (by rw [h])
  have hc : s'.child = s.child := by funext t i; exact child_congr (by rw [he])
  refine ⟨?_, hc⟩
  funext a v
  unfold Vm.leaf
  rw [hc, he]

theorem freeList_of_mem (h : s'.mem = s.mem) (a : Nat) : freeList s' a = freeList s a := by
  have he : s'.entry = s.entry := by funext t i; exact entry_congr (by rw [h])
  unfold freeList pdptFrames pdFrames ptFrames
  rw [he]

variable {R : List Nat}

/-- **Freeing one address space releases no table of another**, and not the kernel's PML4. -/
theorem Shape.not_mem_freeList (h : Shape s R) (ha : a ∈ R) : s.kpml4 ∉ freeList s a ∧
    ∀ b ∈ R, b ≠ a → ∀ p t, TabPath p → follow s.child b p = some t → t ∉ freeList s a := by
  have hone : ∀ f, (∀ p, TabPath p → follow s.child a p ≠ some f) → (∀ v < userPages, ∀ e, s.leaf a v = some e → e.frame ≠ f) →
      f ∉ freeList s a := fun f hnt hnl => by
    have hz := mapCount_eq_zero (s := s) (R := [a]) (f := f) (fun b hb v hv e he => by
      rw [mem_singleton] at hb; subst hb; exact hnl v hv e he)
    rw [mapCount_cons] at hz
    exact count_eq_zero.1 ((count_freeList h ha hnt).trans (by omega))
  refine ⟨hone _ (h.kernTab a ha) (h.kernLeaf a ha), fun b hb hba p t hp ht => hone t (fun p' hp' ht' => ?_) (fun v hv e he hfr => ?_)⟩
  · exact hba (h.unshared b a p p' t hb ha hp hp' ht ht').1
  · exact h.leafTab a ha v hv e he b hb p hp (hfr ▸ ht)

/-- What `vmm_free_user_space` does to the frames: every leaf that mapped a frame drops one reference of it. -/
structure Dropped (s s' : Vm) (a : Nat) : Prop where
  mem : s'.mem = s.mem
  kpml4 : s'.kpml4 = s.kpml4
  nframes : s'.pmm.nframes = s.pmm.nframes
  failed : s'.pmm.failed = s.pmm.failed
  rc : ∀ f, s.pmm.Held f → (∀ p, TabPath p → follow s.child a p ≠ some f) →
    s'.pmm.Has f (s.pmm.refcount f - leafCount s a f)
  used : ∀ f, (∀ p, TabPath p → follow s.child a p ≠ some f) → leafCount s a f = 0 → s'.pmm.used f = s.pmm.used f

theorem vmmFreeUserSpace_dropped (h : Shape s R) (ha : a ∈ R) : Dropped s (vmmFreeUserSpace s a) a := by
  obtain ⟨h0, hk⟩ := h.root a ha
  rw [vmmFreeUserSpace_eq s a h0 hk]
  refine ⟨rfl, rfl, foldl_free_nframes _ _, foldl_free_failed _ _, fun f hf hnt => ?_, fun f hnt hz => ?_⟩
  · rw [← count_freeList h ha hnt]
    exact hf.has.freeAll (freeList s a)
  · rw [← count_freeList h ha hnt] at hz
    exact (foldl_free_ne (freeList s a) s.pmm (count_eq_zero.1 hz)).2

section Dropped

variable {s s' : Vm} {R : List Nat} {a : Nat}

theorem Dropped.keeps (d : Dropped s s' a) {f : Nat} (hf : s.pmm.Held f)
    (hnt : ∀ q, TabPath q → follow s.child a q ≠ some f) (hnl : ∀ v < userPages, ∀ e, s.leaf a v = some e → e.frame ≠ f) :
    s'.pmm.Held f ∧ s'.pmm.refcount f = s.pmm.refcount f := by
  have h1 := d.rc f hf hnt
  have hz : leafCount s a f = 0 := by
    have := mapCount_eq_zero (s := s) (R := [a]) (f := f) (fun b hb v hv e he => by
      rw [mem_singleton] at hb; subst hb; exact hnl v hv e he)
    rw [mapCount_cons] at this
    omega
  rw [hz, Nat.sub_zero] at h1
  exact ⟨h1.held hf.pos, h1.2.1⟩

/-- **The other address spaces stand** when each frame they map has more references than `a` drops. -/
theorem Dropped.shape (d : Dropped s s' a) (h : Shape s R) (ha : a ∈ R)
    (hstay : ∀ b ∈ R.erase a, ∀ v < userPages, ∀ e, s.leaf b v = some e → leafCount s a e.frame < s.pmm.refcount e.frame) :
    Shape s' (R.erase a) := by
  have hmem : ∀ b ∈ R.erase a, b ≠ a ∧ b ∈ R := fun b hb => h.nodup.mem_erase_iff.1 hb
  refine (h.of_subset (h.nodup.erase a) (fun _ hb => mem_of_mem_erase hb)).of_frame
    (fun _ _ _ _ _ _ => by rw [d.mem]) d.kpml4 d.nframes ?_ ?_ ?_
  · intro b hb q t hq ht
    obtain ⟨hba, hbR⟩ := hmem b hb
    have h1 := d.keeps (h.tabHeld b hbR q t hq ht)
      (fun q' hq' ht' => hba (h.unshared b a q q' t hbR ha hq hq' ht ht').1)
      (fun v hv e he hfr => h.leafTab a ha v hv e he b hbR q hq (hfr ▸ ht))
    exact ⟨h1.1, by rw [h1.2]; exact h.tabRc b hbR q t hq ht⟩
  · intro b hb v hv e he
    obtain ⟨-, hbR⟩ := hmem b hb
    have h1 := d.rc e.frame (h.leafHeld b hbR v hv e he) (h.leafTab b hbR v hv e he a ha)
    have h2 := hstay b hb v hv e he
    exact h1.held (by omega)
  · exact (d.keeps h.kern (h.kernTab a ha) (h.kernLeaf a ha)).1

end Dropped

/-- What is left after an address space has been freed: its references are dropped, the other address spaces and all of
memory are as before. -/
structure Freed (s s' : Vm) (R : List Nat) (a : Nat) : Prop extends Dropped s s' a where
  shape : Shape s' (R.erase a)
  counted : Counted s' (R.erase a)

/-- **`vmm_free_user_space`** releases one address space and no frame another one maps. -/
theorem vmmFreeUserSpace_spec (h : Shape s R) (hc : Counted s R) (ha : a ∈ R) : Freed s (vmmFreeUserSpace s a) R a := by
  have d := vmmFreeUserSpace_dropped h ha
  generalize vmmFreeUserSpace s a = s' at *
  have hleft : ∀ b ∈ R.erase a, ∀ v < userPages, ∀ e, s.leaf b v = some e →
      leafCount s a e.frame < s.pmm.refcount e.frame ∧ mapCount s (R.erase a) e.frame ≤ s'.pmm.refcount e.frame := by
    intro b hb v hv e he
    have hbR := mem_of_mem_erase hb
    have h1 := d.rc e.frame (h.leafHeld b hbR v hv e he) (h.leafTab b hbR v hv e he a ha)
    have h2 := hc e.frame
    rw [mapCount_erase s e.frame ha] at h2
    have h3 := one_le_mapCount hb hv he
    exact ⟨by omega, by rw [h1.2.1]; omega⟩
  refine ⟨d, d.shape h ha (fun b hb v hv e he => (hleft b hb v hv e he).1), fun f => ?_⟩
  have hsame : mapCount s' (R.erase a) f = mapCount s (R.erase a) f :=
    mapCount_congr f (fun b _ v _ => by rw [(leaf_of_mem d.mem).1])
  rw [hsame]
  by_cases hex : ∃ b ∈ R.erase a, ∃ v < userPages, ∃ e, s.leaf b v = some e ∧ e.frame = f
  · obtain ⟨b, hb, v, hv, e, he, rfl⟩ := hex
    exact (hleft b hb v hv e he).2
  · rw [mapCount_eq_zero (fun b hb v hv e he hfr => hex ⟨b, hb, v, hv, e, he, hfr⟩)]
    omega

theorem Sound.free (h : Sound s R) (ha : a ∈ R) : Sound (vmmFreeUserSpace s a) (R.erase a) :=
  have hf := vmmFreeUserSpace_spec h.shape h.counted ha
  ⟨hf.shape, hf.counted⟩

end Noxis
