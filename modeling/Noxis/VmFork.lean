import Noxis.VmCount
/-!
# VmFork — what the two forms of fork do to an address space

`forUserLeaves_rule` turns the three nested loops of a fork into one invariant over the page number.  With it
`vmmCowUserSpace_spec` says what sharing copy-on-write has done when the loops end, and `vmmCopyUserSpace_spec` what the
eager copy has done.
-/
namespace Noxis

open Option Radix Finset Pte

theorem forUserLeaves_keeps (body : Nat → Nat → Nat → Vm → Vm × Bool) (F : Vm → Prop)
    (hF : ∀ va pt i s, F s → F (body va pt i s).1) (s : Vm) (src : Nat) (h : F s) : F (forUserLeaves body s src).1 := by
  unfold forUserLeaves
  simp only
  split
  · exact h
  refine forUpTo_keeps _ F _ (fun i3 s _ hs => ?_) s h
  split
  · exact hs
  · refine forUpTo_keeps _ F _ (fun i2 s' _ hs' => ?_) s hs
    split
    · exact hs'
    · exact forUpTo_keeps _ F _ (fun i1 s'' _ hs'' => hF _ _ _ _ hs'') s' hs'

/-- What the loops ask of an invariant `P v` before page `v`: it keeps the paths of the source, and pages that are not mapped may be
skipped. -/
structure Paged (src : Nat) (s0 : Vm) (P : Nat → Vm → Prop) : Prop where
  path : ∀ n s, P n s → ∀ p, TabPath p → follow s.child src p = follow s0.child src p
  ps : ∀ n s, P n s → ∀ p t i, TabPath (p ++ [i]) → follow s.child src p = some t → (s.entry t i).present = true →
    (s.entry t i).ps = false
  skip : ∀ n m s, P n s → n ≤ m → m ≤ userPages → (∀ v, n ≤ v → v < m → s.leaf src v = none) → P m s

section Rule

variable (src : Nat) (s0 : Vm) (body : Nat → Nat → Nat → Vm → Vm × Bool) (F Q : Vm → Prop) (P : Nat → Vm → Prop)

/-- **The loops of a fork as one loop over the pages.**  `F` is a failure that sticks, and `Q` what an early return leaves. -/
theorem forUserLeaves_rule (hF : ∀ va pt i s, F s → F (body va pt i s).1) (hQ : ∀ s, F s → Q s) (hP : Paged src s0 P)
    (hstep : ∀ v va i1 s pt, v < userPages → va = v * 4096 → i1 = v % 512 → P v s → follow s.child src (ptPath v) = some pt →
      Ends F Q (P (v + 1)) (body va pt i1 s)) (h0 : P 0 s0) : Ends F Q (P userPages) (forUserLeaves body s0 src) := by
  obtain ⟨hpath, hps, hskip⟩ := hP
  have t2 : ∀ i, TabPath [0, i] := fun i => ⟨by simp, fun i hi => by simp at hi; omega⟩
  have t3 : ∀ i j, TabPath [0, i, j] := fun i j => ⟨by simp, fun i hi => by simp at hi; omega⟩
  unfold forUserLeaves
  simp only
  by_cases hp4 : (s0.entry src 0).present = true
  swap
  · have hnone : s0.child src 0 = none := by unfold Vm.child; rw [if_neg hp4]
    simp only [hp4, Bool.not_false, if_true]
    exact Ends.go (hskip 0 userPages s0 h0 (by omega) (by omega) (fun v _ _ => leaf_of_empty hnone v))
  simp only [hp4, Bool.not_true, Bool.false_eq_true, if_false]
  generalize he4 : (s0.entry src 0).frame = pdpt
  have f4 : follow s0.child src [0] = some pdpt := by
    rw [follow, child_eq_some.2 ⟨hp4, he4⟩]; rfl
  -- the next table of a path, read off the invariant
  have next : ∀ {n s p t i}, P n s → follow s0.child src p = some t → TabPath (p ++ [i]) →
      follow s.child src (p ++ [i]) = s.child t i := by
    intro n s p t i hP hp hpi
    rw [Radix.follow_snoc, hpath n s hP p (tabPath_closed p i [] hpi), hp, bind_some]
  rw [show userPages = ENTRIES * 2 ^ 18 by unfold ENTRIES userPages; rfl]
  refine forUpTo_ends (P := fun i3 s => P (i3 * 2 ^ 18) s) (fun i3 s hs => ?_) hQ ENTRIES s0 (by rw [zero_mul]; exact h0) ?_
  · split
    · exact hs
    · refine forUpTo_keeps _ F _ (fun i2 s' _ hs' => ?_) s hs
      split
      · exact hs'
      · exact forUpTo_keeps _ F _ (fun i1 s'' _ hs'' => hF _ _ _ _ hs'') s' hs'
  intro i3 s hi3 hP
  unfold ENTRIES at hi3
  have hn3 := next hP f4 (t2 i3)
  by_cases hp3 : (s.entry pdpt i3).present = true
  swap
  · simp only [hp3, Bool.not_false, if_true]
    refine Ends.go (hskip _ _ s hP (by omega) (by unfold userPages; omega) (fun v h1 h2 => leaf_of_missing ?_))
    have hpt : ptPath v = [0, i3] ++ [v / 2 ^ 9 % 512] := by
      unfold ptPath
      rw [show v / 2 ^ 18 % 512 = i3 by omega]
      rfl
    rw [hpt, Radix.follow_snoc, show [0, i3] = [0] ++ [i3] from rfl, hn3]
    unfold Vm.child
    rw [if_neg hp3, bind_none]
  simp only [hp3, Bool.not_true, Bool.false_eq_true, if_false]
  generalize he3 : (s.entry pdpt i3).frame = pd at *
  have f3 : follow s0.child src [0, i3] = some pd := by
    rw [← hpath _ s hP _ (t2 i3), show [0, i3] = [0] ++ [i3] from rfl, hn3, child_eq_some]
    exact ⟨hp3, he3⟩
  rw [show (i3 + 1) * 2 ^ 18 = i3 * 2 ^ 18 + ENTRIES * 2 ^ 9 by unfold ENTRIES; omega]
  refine forUpTo_ends (P := fun i2 s => P (i3 * 2 ^ 18 + i2 * 2 ^ 9) s) (fun i2 s' hs' => ?_) hQ ENTRIES s
    (by rw [zero_mul, add_zero]; exact hP) ?_
  · split
    · exact hs'
    · exact forUpTo_keeps _ F _ (fun i1 s'' _ hs'' => hF _ _ _ _ hs'') s' hs'
  intro i2 s' hi2 hP'
  unfold ENTRIES at hi2
  have hn2 := next hP' f3 (t3 i3 i2)
  by_cases hp2 : (s'.entry pd i2).present = true
  swap
  · simp only [hp2, Bool.not_false, Bool.true_or, if_true]
    refine Ends.go (hskip _ _ s' hP' (by omega) (by unfold userPages; omega) (fun v h1 h2 => leaf_of_missing ?_))
    have hpt : ptPath v = [0, i3] ++ [i2] := by
      unfold ptPath
      rw [show v / 2 ^ 18 % 512 = i3 by omega, show v / 2 ^ 9 % 512 = i2 by omega]
      rfl
    rw [hpt, hn2]
    unfold Vm.child
    rw [if_neg hp2]
  have hps2 : (s'.entry pd i2).ps = false := hps _ s' hP' [0, i3] pd i2 (t3 i3 i2) (by rw [hpath _ s' hP' _ (t2 i3), f3]) hp2
  simp only [hp2, hps2, Bool.not_true, Bool.or_self, Bool.false_eq_true, if_false]
  generalize he2 : (s'.entry pd i2).frame = pt at *
  have f2 : follow s0.child src [0, i3, i2] = some pt := by
    rw [← hpath _ s' hP' _ (t3 i3 i2), show [0, i3, i2] = [0, i3] ++ [i2] from rfl, hn2, child_eq_some]
    exact ⟨hp2, he2⟩
  rw [show i3 * 2 ^ 18 + (i2 + 1) * 2 ^ 9 = i3 * 2 ^ 18 + i2 * 2 ^ 9 + ENTRIES by unfold ENTRIES; omega]
  refine forUpTo_ends (P := fun i1 s => P (i3 * 2 ^ 18 + i2 * 2 ^ 9 + i1) s) (fun i1 s hs => hF _ _ _ _ hs) hQ ENTRIES s'
    (by rw [add_zero]; exact hP') ?_
  intro i1 s'' hi1 hP''
  unfold ENTRIES at hi1
  obtain ⟨hpt, hmod⟩ := ptPath_mk i3 i2 i1 hi3 hi2 hi1
  have h := hstep (i3 * 2 ^ 18 + i2 * 2 ^ 9 + i1) (i3 * 2 ^ 30 + i2 * 2 ^ 21 + i1 * 2 ^ 12) i1 s'' pt
    (by unfold userPages; omega) (by omega) hmod.symm hP'' (by rw [hpt, hpath _ s'' hP'' _ (t3 i3 i2), f2])
  rw [add_assoc _ i1 1] at h
  exact h

end Rule

/-! ## Sharing copy-on-write -/

def demote (e : Pte) : Pte := ⟨e.frame, cowFlags e.flags⟩

theorem demote_flags (e : Pte) (h : e.user = true) : (demote e).user = true ∧ (demote e).rw = !(demote e).cow := by
  unfold user rw cow demote
  rw [cowFlags_user, cowFlags_rw, cowFlags_cow]
  exact ⟨h, rfl⟩

/-- Where `vmm_cow_user_space` has got to before page `n`: the pages below `n` are shared. -/
structure Cow (s0 s : Vm) (R : List Nat) (a d n : Nat) : Prop where
  shape : Shape s R
  tab : ∀ b ∈ R, b ≠ d → ∀ p, TabPath p → follow s.child b p = follow s0.child b p
  new : ∀ p t, TabPath p → follow s.child d p = some t → follow s0.child d p = some t ∨ s0.pmm.used t = false
  leafSrc : ∀ v < userPages, s.leaf a v = if v < n then (s0.leaf a v).map demote else s0.leaf a v
  leafDst : ∀ v < userPages, s.leaf d v = if v < n then (s0.leaf a v).map demote else none
  leafOther : ∀ b ∈ R, b ≠ a → b ≠ d → ∀ v < userPages, s.leaf b v = s0.leaf b v
  used : ∀ f, s0.pmm.used f = true → s.pmm.used f = true
  rc : ∀ f, s0.pmm.used f = true → s.pmm.refcount f =
    max (s0.pmm.refcount f) (min 255 (s0.pmm.refcount f + ∑ v ∈ Finset.range n, pointsTo (s0.leaf a v) f))
  owns : ∀ f, s.pmm.used f = true → s0.pmm.used f = true ∨ f = 0 ∨ ∃ p, WalkPath p ∧ follow s.child d p = some f
  idle : ∀ f, s.pmm.used f = false → s.pmm.refcount f = s0.pmm.refcount f
  mem : ∀ f, s0.pmm.used f = true → (∀ b ∈ R, ∀ p, TabPath p → follow s0.child b p ≠ some f) → s.mem f = s0.mem f
  nframes : s.pmm.nframes = s0.pmm.nframes
  kpml4 : s.kpml4 = s0.kpml4

namespace Cow

variable {s0 s : Vm} {R : List Nat} {a d n : Nat}

theorem start (h : Shape s0 R) (hd : ∀ v < userPages, s0.leaf d v = none) : Cow s0 s0 R a d 0 :=
  ⟨h, fun _ _ _ _ _ => rfl, fun _ _ _ ht => .inl ht, fun v _ => by rw [if_neg (by omega)],
    fun v hv => by rw [if_neg (by omega), hd v hv], fun _ _ _ _ _ _ => rfl, fun _ hf => hf,
    fun f _ => by rw [range_zero, sum_empty]; omega, fun _ hf => .inl hf, fun _ _ => rfl, fun _ _ _ => rfl,
    rfl, rfl⟩

theorem skip (h : Cow s0 s R a d n) {m : Nat} (hnm : n ≤ m) (hm : m ≤ userPages)
    (hnone : ∀ v, n ≤ v → v < m → s.leaf a v = none) : Cow s0 s R a d m := by
  have hnone0 : ∀ v, n ≤ v → v < m → s0.leaf a v = none := by
    intro v h1 h2
    have := h.leafSrc v (by omega)
    rw [if_neg (by omega)] at this
    rw [← this, hnone v h1 h2]
  refine ⟨h.shape, h.tab, h.new, fun v hv => ?_, fun v hv => ?_, h.leafOther, h.used, fun f hf => ?_, h.owns, h.idle,
    h.mem, h.nframes, h.kpml4⟩
  · rw [h.leafSrc v hv]
    by_cases h1 : v < n
    · rw [if_pos h1, if_pos (by omega)]
    · by_cases h2 : v < m
      · rw [if_neg h1, if_pos h2, hnone0 v (by omega) h2]; rfl
      · rw [if_neg h1, if_neg h2]
  · rw [h.leafDst v hv]
    by_cases h1 : v < n
    · rw [if_pos h1, if_pos (by omega)]
    · by_cases h2 : v < m
      · rw [if_neg h1, if_pos h2, hnone0 v (by omega) h2]; rfl
      · rw [if_neg h1, if_neg h2]
  · rw [h.rc f hf]
    have hsub : ∑ v ∈ range n, pointsTo (s0.leaf a v) f = ∑ v ∈ range m, pointsTo (s0.leaf a v) f := by
      refine sum_subset (range_subset_range.2 hnm) (fun v h1 h2 => ?_)
      rw [mem_range] at h1 h2
      rw [hnone0 v (by omega) h1, pointsTo_none]
    rw [hsub]

theorem paged (ha : a ∈ R) (had : a ≠ d) : Paged a s0 (fun n s => Cow s0 s R a d n) where
  path _ _ h := h.tab a ha had
  ps _ _ h p t i hpi ht hpres := (h.shape.tabFlags a ha p t i hpi ht hpres).2.2
  skip _ _ _ h := h.skip

end Cow

variable {f a v pt d va : Nat}

theorem Pmm.Held.addref {p : Pmm} {g : Nat} (hf : f < p.nframes) (h : p.Held g) : (pmmAddref p f).Held g := by
  refine ⟨by rw [pmmAddref_nframes]; exact h.lt, by rw [pmmAddref_used]; exact h.used, ?_⟩
  rw [pmmAddref_refcount hf]
  have := h.pos
  split <;> omega

variable {s s0 s' : Vm} {R : List Nat}

theorem Shape.addref (h : Shape s R) (hf : f < s.pmm.nframes)
    (hnt : ∀ b ∈ R, ∀ p, TabPath p → follow s.child b p ≠ some f) : Shape (s.addref f) R := by
  refine h.of_frame (fun _ _ _ _ _ _ => rfl) rfl (pmmAddref_nframes _ _) (fun b hb p t hp ht => ?_)
    (fun b hb v hv e he => (h.leafHeld b hb v hv e he).addref hf) (h.kern.addref hf)
  refine ⟨(h.tabHeld b hb p t hp ht).addref hf, ?_⟩
  show (pmmAddref s.pmm f).refcount t = 1
  rw [pmmAddref_refcount hf, if_neg (fun (hc : t = f ∧ _) => hnt b hb p hp (hc.1 ▸ ht))]
  exact h.tabRc b hb p t hp ht

theorem cowLeaf_failed (d va pt i1 : Nat) (s : Vm) (h : s.pmm.failed = true) : (cowLeaf d va pt i1 s).1.pmm.failed = true := by
  by_contra hc
  rw [Bool.not_eq_true] at hc
  have hs : s.pmm.failed = false := by
    unfold cowLeaf at hc
    simp only at hc
    split at hc
    · exact hc
    refine vmmMapPageInto_failed (s.setEntry pt i1 ⟨(s.entry pt i1).frame, cowFlags (s.entry pt i1).flags⟩) d va
      (s.entry pt i1).frame (cowFlags (s.entry pt i1).flags &&& ~~~PAGE_PRESENT) ?_
    split at hc
    next s' heq => rw [heq]; exact hc
    next s' heq =>
      rw [heq]
      have : (pmmAddref s'.pmm (s.entry pt i1).frame).failed = false := hc
      rw [pmmAddref_failed] at this
      exact this
  rw [h] at hs; cases hs

theorem Shape.demote_leaf (h : Shape s R) {e : Pte} (ha : a ∈ R)
    (hv : v < userPages) (hpt : follow s.child a (ptPath v) = some pt) (he : s.leaf a v = some e) :
    let r := s.setEntry pt (v % 512) (demote e)
    Shape r R ∧ r.leaf a v = some (demote e) ∧ (∀ b ∈ R, ∀ w < userPages, ¬ (b = a ∧ w = v) → r.leaf b w = s.leaf b w) ∧
    (∀ b ∈ R, ∀ p, TabPath p → follow r.child b p = follow s.child b p) := by
  obtain ⟨-, -, -, hpres⟩ := leaf_eq_some.1 he
  refine h.set_leaf ha hv hpt (demote e) ?_ (demote_flags e (h.leafFlags a ha v hv e he).1) (h.leafHeld a ha v hv e he)
    (h.leafTab a ha v hv e he) (h.kernLeaf a ha v hv e he) ?_ ?_
  · unfold present demote
    rw [cowFlags_present]; exact hpres
  · intro w hw hne e' he' hfr
    exact hne (h.leafInj a ha w hw v hv e' e he' he hfr)
  · intro b hb w hw hne e' he' hfr
    refine ⟨cowFlags_rw e.flags, ?_⟩
    cases hrw : e'.rw with
    | false => rfl
    | true =>
      obtain ⟨h1, h2⟩ := h.excl b hb w hw e' he' hrw a ha v hv e he hfr.symm
      exact absurd ⟨h1.symm, h2.symm⟩ hne

theorem cowLeaf_false (d va pt i1 : Nat) (s : Vm) (h : (cowLeaf d va pt i1 s).2 = false) :
    (cowLeaf d va pt i1 s).1.pmm.failed = true := by
  set r := s.setEntry pt i1 ⟨(s.entry pt i1).frame, cowFlags (s.entry pt i1).flags⟩
  have hf := vmmMapPageInto_false r d va
    (s.entry pt i1).frame (cowFlags (s.entry pt i1).flags &&& ~~~PAGE_PRESENT)
  unfold cowLeaf at h ⊢
  dsimp only at h ⊢
  by_cases hp : (!(s.entry pt i1).present) = true
  · rw [if_pos hp] at h
    cases h
  rw [if_neg hp] at h ⊢
  cases hm : vmmMapPageInto r d va
    (s.entry pt i1).frame (cowFlags (s.entry pt i1).flags &&& ~~~PAGE_PRESENT) with | mk s2 b =>
  rw [hm] at h hf
  cases b with
  | false => exact hf rfl
  | true => cases h

section

variable (hpt : follow s.child a (ptPath v) = some pt) (hn : s.leaf a v = none)
include hpt hn

theorem present_of_leaf : (s.entry pt (v % 512)).present = false := by
  rw [leaf_of_follow hpt] at hn
  by_contra hc
  rw [Bool.not_eq_false] at hc
  rw [if_pos hc] at hn
  cases hn

theorem cowLeaf_none : cowLeaf d va pt (v % 512) s = (s, true) := by
  unfold cowLeaf
  simp only [present_of_leaf hpt hn, Bool.not_false, if_true]

theorem copyLeaf_none : copyLeaf d va pt (v % 512) s = (s, true) := by
  unfold copyLeaf
  simp only [present_of_leaf hpt hn, Bool.not_false, if_true]

end

section

variable (ha : a ∈ R) (hd : d ∈ R) (had : a ≠ d) (hv : v < userPages) (h : Cow s0 s R a d v) (hpt : follow s.child a (ptPath
  v) = some pt)
include ha hd had hv h hpt

theorem cowLeaf_step (hans : (cowLeaf d (v * 4096) pt (v % 512) s).2 = true) : Cow s0 (cowLeaf d (v * 4096) pt (v % 512) s).1
    R a d (v + 1) := by
  by_cases hpres : (s.entry pt (v % 512)).present = true
  swap
  · -- nothing mapped here
    have hnone : s.leaf a v = none := by rw [leaf_of_follow hpt, if_neg hpres]
    rw [cowLeaf_none hpt hnone]
    refine h.skip (by omega) (by omega) (fun w h1 h2 => ?_)
    obtain rfl : w = v := by omega
    exact hnone
  generalize he : s.entry pt (v % 512) = e at *
  have hleaf : s.leaf a v = some e := leaf_eq_some.2 ⟨pt, hpt, he, hpres⟩
  have hleaf0 : s0.leaf a v = some e := by
    have := h.leafSrc v hv
    rw [if_neg (by omega), hleaf] at this
    exact this.symm
  have hfl := h.shape.leafFlags a ha v hv e hleaf
  have hheld := h.shape.leafHeld a ha v hv e hleaf
  have htab := h.shape.leafTab a ha v hv e hleaf
  obtain ⟨sh1, l1, lo1, f1⟩ := h.shape.demote_leaf ha hv hpt hleaf
  have heq : ∀ s2 b, vmmMapPageInto (s.setEntry pt (v % 512) (demote e)) d (v * 4096) e.frame
      (cowFlags e.flags &&& ~~~PAGE_PRESENT) = (s2, b) →
      cowLeaf d (v * 4096) pt (v % 512) s = if b then (s2.addref e.frame, true) else (s2, false) := by
    intro s2 b hm
    unfold demote at hm
    unfold cowLeaf
    simp only [he, hpres, hm, Bool.not_true, Bool.false_eq_true, if_false]
    cases b <;> rfl
  have hmem1 : ∀ f, f ≠ pt → (s.setEntry pt (v % 512) (demote e)).mem f = s.mem f := fun f hf => mem_setEntry_ne hf
  generalize hs1 : s.setEntry pt (v % 512) (demote e) = s1 at *
  have hpmm1 : s1.pmm = s.pmm := by rw [← hs1]; rfl
  have hk1 : s1.kpml4 = s.kpml4 := by rw [← hs1]; rfl
  have hmap : (vmmMapPageInto s1 d (v * 4096) e.frame (cowFlags e.flags &&& ~~~PAGE_PRESENT)).2 = true := by
    cases hm : vmmMapPageInto s1 d (v * 4096) e.frame (cowFlags e.flags &&& ~~~PAGE_PRESENT) with | mk s2 b =>
    rw [heq s2 b hm] at hans
    cases b with
    | false => exact hans
    | true => rfl
  have hvd : v * 4096 / 4096 = v := by omega
  have hbit : ∀ k, k ≠ 0 → k < 12 → (cowFlags e.flags &&& ~~~PAGE_PRESENT).getLsbD k = (cowFlags e.flags).getLsbD k := by
    intro k hk hk'
    rw [BitVec.getLsbD_and, BitVec.getLsbD_not, show PAGE_PRESENT = BitVec.twoPow 12 0 from rfl, BitVec.getLsbD_twoPow]
    simp [Ne.symm hk, hk']
  have hrw : hasFlag (cowFlags e.flags &&& ~~~PAGE_PRESENT) PAGE_RW = false := by
    rw [hasFlag_rw, hbit 1 (by decide) (by decide), ← hasFlag_rw, cowFlags_rw]
  have hcow : hasFlag (cowFlags e.flags &&& ~~~PAGE_PRESENT) PAGE_COW = true := by
    rw [hasFlag_cow, hbit 9 (by decide) (by decide), ← hasFlag_cow, cowFlags_cow]
  have huser : hasFlag (cowFlags e.flags &&& ~~~PAGE_PRESENT) PAGE_USER = true := by
    rw [hasFlag_user, hbit 2 (by decide) (by decide), ← hasFlag_user, cowFlags_user]; exact hfl.1
  have m2 := vmmMapPageInto_mapped sh1 hd (by rw [hvd]; exact hv) huser (by rw [hrw, hcow]; rfl)
    (by rw [hpmm1]; exact hheld) (fun b hb p hp => by rw [f1 b hb p hp]; exact htab b hb p hp)
    (by rw [hk1]; exact h.shape.kernLeaf a ha v hv e hleaf)
    (fun w hw hne e' he' hfr => by
      rw [hvd] at hne
      rw [lo1 d hd w hw (fun hc => had hc.1.symm), h.leafDst w hw] at he'
      split at he'
      next hlt =>
        have hw' := h.leafSrc w hw
        rw [if_pos hlt, he'] at hw'
        exact hne (h.shape.leafInj a ha w hw v hv e' e hw' hleaf hfr)
      next => cases he')
    (fun b hb w hw hne e' he' hfr => by
      refine ⟨hrw, ?_⟩
      by_cases hbw : b = a ∧ w = v
      · obtain ⟨rfl, rfl⟩ := hbw
        rw [l1] at he'; cases he'
        exact cowFlags_rw e.flags
      rw [lo1 b hb w hw hbw] at he'
      cases hrw' : e'.rw with
      | false => rfl
      | true =>
        obtain ⟨h1, h2⟩ := h.shape.excl b hb w hw e' he' hrw' a ha v hv e hleaf hfr.symm
        exact absurd ⟨h1.symm, h2.symm⟩ hbw) hmap
  cases hm : vmmMapPageInto s1 d (v * 4096) e.frame (cowFlags e.flags &&& ~~~PAGE_PRESENT) with | mk s2 b =>
  rw [hm] at hmap m2
  obtain rfl : b = true := hmap
  simp only at m2
  rw [hvd, present_restored _ (by rw [cowFlags_present]; exact hpres)] at m2
  rw [heq s2 true hm, if_pos rfl]
  have hlt2 : e.frame < s2.pmm.nframes := by rw [m2.nframes, hpmm1]; exact hheld.lt
  have htab2 : ∀ b ∈ R, ∀ p, TabPath p → follow s2.child b p ≠ some e.frame :=
    m2.notTab (by rw [hpmm1]; exact hheld.used) (fun b hb p hp => by rw [f1 b hb p hp]; exact htab b hb p hp)
  have hptA : follow s0.child a (ptPath v) = some pt := by rw [← h.tab a ha had _ (tabPath_ptPath v)]; exact hpt
  refine ⟨m2.shape.addref hlt2 htab2, ?_, ?_, ?_, ?_, ?_, ?_, ?_, ?_, ?_, ?_, ?_, ?_⟩
  · intro b hb hbd p hp
    exact (m2.other b hb hbd p hp).trans ((f1 b hb p hp).trans (h.tab b hb hbd p hp))
  · intro p t hp ht
    rcases m2.new p t hp ht with ht | hu
    · rw [f1 d hd p hp] at ht
      exact h.new p t hp ht
    · refine .inr ?_
      cases hu0 : s0.pmm.used t with
      | false => rfl
      | true => rw [hpmm1, h.used t hu0] at hu; cases hu
  · intro w hw
    show s2.leaf a w = _
    rw [m2.leaf a ha w hw (fun hc => had hc.1)]
    by_cases hwv : w = v
    · subst hwv
      rw [l1, if_pos (by omega), hleaf0]; rfl
    · rw [lo1 a ha w hw (fun hc => hwv hc.2), h.leafSrc w hw]
      by_cases hlt : w < v
      · rw [if_pos hlt, if_pos (by omega)]
      · rw [if_neg hlt, if_neg (by omega)]
  · intro w hw
    show s2.leaf d w = _
    by_cases hwv : w = v
    · subst hwv
      rw [m2.self, if_pos (by omega), hleaf0]; rfl
    · rw [m2.leaf d hd w hw (fun hc => hwv hc.2), lo1 d hd w hw (fun hc => had hc.1.symm), h.leafDst w hw]
      by_cases hlt : w < v
      · rw [if_pos hlt, if_pos (by omega)]
      · rw [if_neg hlt, if_neg (by omega)]
  · intro b hb hba hbd w hw
    show s2.leaf b w = _
    rw [m2.leaf b hb w hw (fun hc => hbd hc.1), lo1 b hb w hw (fun hc => hba hc.1), h.leafOther b hb hba hbd w hw]
  · intro f hf
    show (pmmAddref s2.pmm e.frame).used f = true
    rw [pmmAddref_used]
    exact (m2.held f (by rw [hpmm1]; exact h.used f hf)).1
  · intro f hf
    show (pmmAddref s2.pmm e.frame).refcount f = _
    rw [pmmAddref_refcount hlt2, (m2.held f (by rw [hpmm1]; exact h.used f hf)).2, hpmm1,
      (m2.held e.frame (by rw [hpmm1]; exact hheld.used)).2, hpmm1, sum_range_succ, hleaf0, pointsTo_some]
    have := h.rc f hf
    by_cases hfe : f = e.frame
    · subst hfe
      simp only [true_and, if_true]
      split <;> omega
    · rw [if_neg (fun hc => hfe hc.1), if_neg (Ne.symm hfe), add_zero, this]
  · intro f hf
    have hf2 : (pmmAddref s2.pmm e.frame).used f = true := hf
    rw [pmmAddref_used] at hf2
    rcases m2.owns f hf2 with hu | h0 | hp
    · rw [hpmm1] at hu
      rcases h.owns f hu with hu | h0 | ⟨p, hp, ht⟩
      · exact .inl hu
      · exact .inr (.inl h0)
      · exact .inr (.inr ⟨p, hp, m2.mono d hd p f hp.tabPath (by rw [f1 d hd p hp.tabPath]; exact ht)⟩)
    · exact .inr (.inl h0)
    · exact .inr (.inr hp)
  · intro f hf
    have hf2 : (pmmAddref s2.pmm e.frame).used f = false := hf
    rw [pmmAddref_used] at hf2
    have hfs : s.pmm.used f = false := by
      cases hu : s.pmm.used f with
      | false => rfl
      | true => rw [(m2.held f (by rw [hpmm1]; exact hu)).1] at hf2; cases hf2
    have hfe : f ≠ e.frame := by
      rintro rfl
      rw [hheld.used] at hfs
      cases hfs
    show (pmmAddref s2.pmm e.frame).refcount f = _
    rw [pmmAddref_refcount hlt2, if_neg (fun hc => hfe hc.1), m2.idle f hf2, hpmm1, h.idle f hfs]
  · intro f hf hout
    show s2.mem f = _
    have hfs : s.pmm.used f = true := h.used f hf
    rw [m2.mem f (by rw [hpmm1]; exact hfs) (fun p hp ht => ?_), hmem1 f (fun hc => hout a ha _ (tabPath_ptPath v) (hc ▸ hptA)),
      h.mem f hf hout]
    rw [f1 d hd p hp] at ht
    rcases h.new p f hp ht with ht | hu
    · exact hout d hd p hp ht
    · rw [hf] at hu; cases hu
  · show (pmmAddref s2.pmm e.frame).nframes = _
    rw [pmmAddref_nframes, m2.nframes, hpmm1, h.nframes]
  · show s2.kpml4 = _
    rw [m2.kpml4, hk1, h.kpml4]

theorem cowLeaf_or :
    let r := cowLeaf d (v * 4096) pt (v % 512) s
    r.1.pmm.failed = true ∨ (r.2 = true ∧ Cow s0 r.1 R a d (v + 1)) := by
  dsimp only
  cases hans : (cowLeaf d (v * 4096) pt (v % 512) s).2 with
  | false => exact .inl (cowLeaf_false _ _ _ _ _ hans)
  | true => exact .inr ⟨rfl, cowLeaf_step ha hd had hv h hpt hans⟩

end

section

variable (h : Shape s R) (ha : a ∈ R) (hd : d ∈ R) (had : a ≠ d) (hempty : ∀ v < userPages, s.leaf d v = none)
include h ha hd had hempty

/-- **`vmm_cow_user_space`**: parent and child map the parent's frames read-only, with one more reference each, or an
allocation failed on the way. -/
theorem vmmCowUserSpace_ends : Ends (fun _ => False) (fun s' => s'.pmm.failed = true) (fun s' => Cow s s' R a d userPages)
    (vmmCowUserSpace s d a) :=
  forUserLeaves_rule a s (cowLeaf d) (fun _ => False) (fun s' => s'.pmm.failed = true) (fun n s' => Cow s s' R a d n)
    (fun _ _ _ _ hf => hf) (fun _ hf => hf.elim) (Cow.paged ha had)
    (fun v va i1 s' pt hv hva hi hP hpt => by
      subst hva hi
      exact ⟨fun hb => .inr (cowLeaf_step ha hd had hv hP hpt hb), cowLeaf_false _ _ _ _ _⟩) (Cow.start h hempty)

theorem vmmCowUserSpace_spec (hok : (vmmCowUserSpace s d a).1.pmm.failed = false) : (vmmCowUserSpace s d a).2 = true ∧
    Cow s (vmmCowUserSpace s d a).1 R a d userPages := by
  have hends := vmmCowUserSpace_ends h ha hd had hempty
  cases hans : (vmmCowUserSpace s d a).2 with
  | false => rw [hends.early hans] at hok; cases hok
  | true => exact ⟨rfl, (hends.on hans).resolve_left id⟩

end

theorem Cow.mapCount (h : Cow s s' R a d userPages) (hd : d ∈ R)
    (hnd : R.Nodup) (hempty : ∀ v < userPages, s.leaf d v = none) (f : Nat) :
    mapCount s' R f = mapCount s R f + leafCount s a f := by
  have hfr : ∀ v, ((s.leaf a v).map demote).map frame = (s.leaf a v).map frame := by
    intro v; cases s.leaf a v <;> rfl
  rw [mapCount_erase s' f hd, mapCount_erase s f hd, leafCount_empty hempty f]
  have h1 : leafCount s' d f = leafCount s a f := leafCount_congr f (fun v hv => by
    rw [h.leafDst v hv, if_pos hv, hfr])
  have h2 : Noxis.mapCount s' (R.erase d) f = Noxis.mapCount s (R.erase d) f := by
    refine mapCount_congr f (fun b hb v hv => ?_)
    obtain ⟨hbd, hbR⟩ := (hnd.mem_erase_iff).1 hb
    by_cases hba : b = a
    · subst hba
      rw [h.leafSrc v hv, if_pos hv, hfr]
    · rw [h.leafOther b hbR hba hbd v hv]
  omega

/-- **Fork keeps the counts**, as long as no frame comes to be mapped more than 255 times. -/
theorem Cow.counted (h : Cow s s' R a d userPages) (hs : Shape s R) (ha : a ∈ R)
    (hd : d ∈ R) (hempty : ∀ v < userPages, s.leaf d v = none) (hc : Counted s R)
    (hle : ∀ f, Noxis.mapCount s R f + leafCount s a f ≤ 255) : Counted s' R := by
  intro f
  rw [h.mapCount hd hs.nodup hempty f]
  cases hu : s.pmm.used f with
  | true =>
    rw [h.rc f hu]
    have h1 := hc f
    have h2 := hle f
    unfold leafCount at h2 ⊢
    omega
  | false =>
    have h1 : Noxis.mapCount s R f = 0 := mapCount_eq_zero (fun b hb v hv e he hfr => by
      have := (hs.leafHeld b hb v hv e he).used
      rw [hfr, hu] at this; cases this)
    have h2 := leafCount_le_mapCount s f ha
    omega

/-! ## The eager copy -/

/-- Where `vmm_copy_user_space` has got to before page `n`: the pages below `n` are copied to fresh frames. -/
structure Copied (s0 s : Vm) (R : List Nat) (a d n : Nat) : Prop where
  shape : Shape s R
  tab : ∀ b ∈ R, b ≠ d → ∀ p, TabPath p → follow s.child b p = follow s0.child b p
  new : ∀ p t, TabPath p → follow s.child d p = some t → follow s0.child d p = some t ∨ s0.pmm.used t = false
  leafOther : ∀ b ∈ R, b ≠ d → ∀ v < userPages, s.leaf b v = s0.leaf b v
  leafDst : ∀ v < userPages, v < n → ∀ e, s0.leaf a v = some e → ∃ e', s.leaf d v = some e' ∧ e'.flags = e.flags ∧
    s.mem e'.frame = s0.mem e.frame ∧ s.pmm.used e'.frame = true
  leafNone : ∀ v < userPages, (n ≤ v ∨ s0.leaf a v = none) → s.leaf d v = none
  held : ∀ f, s0.pmm.used f = true → s.pmm.used f = true ∧ s.pmm.refcount f = s0.pmm.refcount f
  mem : ∀ f, s0.pmm.used f = true → (∀ b ∈ R, ∀ p, TabPath p → follow s0.child b p ≠ some f) → s.mem f = s0.mem f
  counted : Counted s R
  kpml4 : s.kpml4 = s0.kpml4

namespace Copied

variable {s0 s : Vm} {R : List Nat} {a d n : Nat}

theorem start (h : Shape s0 R) (hc : Counted s0 R) (hd : ∀ v < userPages, s0.leaf d v = none) : Copied s0 s0 R a d 0 :=
  ⟨h, fun _ _ _ _ _ => rfl, fun _ _ _ ht => .inl ht, fun _ _ _ _ _ => rfl, fun v _ hv => absurd hv (by omega),
    fun v hv _ => hd v hv, fun _ hf => ⟨hf, rfl⟩, fun _ _ _ => rfl, hc, rfl⟩

theorem skip (h : Copied s0 s R a d n) (ha : a ∈ R) (had : a ≠ d) {m : Nat}
    (hnone : ∀ v, n ≤ v → v < m → s.leaf a v = none) (hnm : n ≤ m) : Copied s0 s R a d m := by
  refine ⟨h.shape, h.tab, h.new, h.leafOther, fun v hv hvm e he => ?_, fun v hv hor => ?_, h.held, h.mem, h.counted, h.kpml4⟩
  · by_cases hvn : v < n
    · exact h.leafDst v hv hvn e he
    · have := hnone v (by omega) hvm
      rw [h.leafOther a ha had v hv, he] at this
      cases this
  · refine h.leafNone v hv ?_
    rcases hor with hmv | hz
    · exact .inl (by omega)
    · exact .inr hz

theorem paged (ha : a ∈ R) (had : a ≠ d) : Paged a s0 (fun n s => Copied s0 s R a d n) where
  path _ _ h := h.tab a ha had
  ps _ _ h p t i hpi ht hpres := (h.shape.tabFlags a ha p t i hpi ht hpres).2.2
  skip _ _ _ h h1 _ h3 := h.skip ha had h3 h1

end Copied

theorem copyLeaf_failed (d va pt i1 : Nat) (s : Vm) (h : s.pmm.failed = true) : (copyLeaf d va pt i1 s).1.pmm.failed = true := by
  by_contra hc
  rw [Bool.not_eq_true] at hc
  have hs : s.pmm.failed = false := by
    unfold copyLeaf at hc
    simp only at hc
    split at hc
    · exact hc
    · split at hc
      · exact pmmAllocFrame_failed hc
      · exact pmmAllocFrame_failed (vmmMapPageInto_failed _ _ _ _ _ hc)
  rw [h] at hs; cases hs

theorem copyLeaf_step (ha : a ∈ R) (hd : d ∈ R) (had : a ≠ d) (hv : v < userPages)
    (hs0 : Shape s0 R) (h : Copied s0 s R a d v) (hpt : follow s.child a (ptPath v) = some pt) :
    let r := copyLeaf d (v * 4096) pt (v % 512) s
    r.1.pmm.failed = true ∨ (r.2 = true ∧ Copied s0 r.1 R a d (v + 1)) := by
  by_cases hpres : (s.entry pt (v % 512)).present = true
  swap
  · have hnone : s.leaf a v = none := by rw [leaf_of_follow hpt, if_neg hpres]
    rw [copyLeaf_none hpt hnone]
    refine .inr ⟨rfl, h.skip ha had (fun w h1 h2 => ?_) (by omega)⟩
    obtain rfl : w = v := by omega
    exact hnone
  generalize he : s.entry pt (v % 512) = e at *
  have hleaf : s.leaf a v = some e := leaf_eq_some.2 ⟨pt, hpt, he, hpres⟩
  have hleaf0 : s0.leaf a v = some e := by rw [← h.leafOther a ha had v hv, hleaf]
  have hfl := h.shape.leafFlags a ha v hv e hleaf
  have hheld0 := hs0.leafHeld a ha v hv e hleaf0
  have hmem0 : s.mem e.frame = s0.mem e.frame := h.mem e.frame hheld0.used (hs0.leafTab a ha v hv e hleaf0)
  by_cases hok1 : s.allocFrame.2.pmm.failed = true
  · refine .inl ?_
    unfold copyLeaf
    simp only [he, hpres, Bool.not_true, Bool.false_eq_true, if_false]
    split
    · exact hok1
    by_contra hc
    rw [Bool.not_eq_true] at hc
    have := vmmMapPageInto_failed _ _ _ _ _ hc
    rw [show (s.allocFrame.2.copyFrame s.allocFrame.1 e.frame).pmm = s.allocFrame.2.pmm from rfl, hok1] at this
    cases this
  rw [Bool.not_eq_true] at hok1
  obtain ⟨h0, htook⟩ := took_allocFrame hok1 (s.mem e.frame)
  have hzc : (s.allocFrame.2.setFrame s.allocFrame.1 (s.mem e.frame)).mem s.allocFrame.1 = s.mem e.frame := mem_setFrame
  have heq : copyLeaf d (v * 4096) pt (v % 512) s = ((vmmMapPageInto
      (s.allocFrame.2.setFrame s.allocFrame.1 (s.mem e.frame)) d (v * 4096) s.allocFrame.1 e.flags).1, true) := by
    unfold copyLeaf
    simp only [he, hpres, Bool.not_true, Bool.false_eq_true, if_false, if_neg h0]
    rfl
  rw [heq]
  generalize s.allocFrame.1 = c at *
  generalize s.allocFrame.2.setFrame c (s.mem e.frame) = z at *
  by_cases hok : (vmmMapPageInto z d (v * 4096) c e.flags).1.pmm.failed = true
  · exact .inl hok
  rw [Bool.not_eq_true] at hok
  refine .inr ⟨rfl, ?_⟩
  have hvd : v * 4096 / 4096 = v := by omega
  have m2 := htook.mapped h.shape hd (by rw [hvd]; exact hv) hfl.1 hfl.2 (vmmMapPageInto_true hok)
  rw [hvd, present_kept _ hpres] at m2
  generalize (vmmMapPageInto z d (v * 4096) c e.flags).1 = s2 at *
  have huse : ∀ f, s.pmm.used f = true → z.pmm.used f = true ∧ z.pmm.refcount f = s.pmm.refcount f := by
    intro f hf
    obtain ⟨h1, h2⟩ := htook.pmm f (htook.ne hf)
    exact ⟨by rw [h1]; exact hf, h2⟩
  have hleaf2 : ∀ b ∈ R, ∀ w < userPages, ¬ (b = d ∧ w = v) → s2.leaf b w = s.leaf b w := by
    intro b hb w hw hne
    rw [m2.leaf b hb w hw hne, htook.leaf h.shape hb w]
  -- a data frame of the forest keeps its bytes
  have hmem2 : ∀ f, s.pmm.used f = true → (∀ p, TabPath p → follow s.child d p ≠ some f) → s2.mem f = s.mem f := by
    intro f hf hout
    rw [m2.mem f (huse f hf).1 (fun p hp => by rw [htook.follow h.shape hd hp]; exact hout p hp), htook.mem f (htook.ne hf)]
  refine ⟨m2.shape, ?_, ?_, ?_, ?_, ?_, ?_, ?_, ?_, ?_⟩
  · intro b hb hbd p hp
    rw [m2.other b hb hbd p hp, htook.follow h.shape hb hp, h.tab b hb hbd p hp]
  · intro p t hp ht
    rcases m2.new p t hp ht with ht | hu
    · rw [htook.follow h.shape hd hp] at ht
      exact h.new p t hp ht
    · refine .inr ?_
      cases hu0 : s0.pmm.used t with
      | false => rfl
      | true => rw [(huse t (h.held t hu0).1).1] at hu; cases hu
  · intro b hb hbd w hw
    rw [hleaf2 b hb w hw (fun hc => hbd hc.1), h.leafOther b hb hbd w hw]
  · intro w hw hwv e1 he1
    by_cases hwv' : w = v
    · subst hwv'
      obtain rfl : e = e1 := by rw [hleaf0] at he1; exact some.inj he1
      refine ⟨⟨c, e.flags⟩, m2.self, rfl, ?_, (m2.held c htook.heldNew.used).1⟩
      show s2.mem c = _
      rw [m2.mem c htook.heldNew.used (fun p hp => (htook.fresh h.shape).1 d hd p hp), hzc, hmem0]
    · obtain ⟨e', hl', hfl', hm', hu'⟩ := h.leafDst w hw (by omega) e1 he1
      refine ⟨e', by rw [hleaf2 d hd w hw (fun hc => hwv' hc.2)]; exact hl', hfl', ?_, (m2.held _ (huse _ hu').1).1⟩
      rw [hmem2 e'.frame hu' (fun p hp => h.shape.leafTab d hd w hw e' hl' d hd p hp), hm']
  · intro w hw hor
    have hwv : w ≠ v := by
      rintro rfl
      rcases hor with hc | hc
      · omega
      · rw [hleaf0] at hc; cases hc
    rw [hleaf2 d hd w hw (fun hc => hwv hc.2)]
    refine h.leafNone w hw ?_
    rcases hor with hc | hc
    · exact .inl (by omega)
    · exact .inr hc
  · intro f hf
    obtain ⟨h1, h2⟩ := h.held f hf
    obtain ⟨h3, h4⟩ := huse f h1
    exact ⟨(m2.held f h3).1, by rw [(m2.held f h3).2, h4, h2]⟩
  · intro f hf hout
    rw [hmem2 f (h.held f hf).1 (fun p hp ht => ?_), h.mem f hf hout]
    rcases h.new p f hp ht with ht | hu
    · exact hout d hd p hp ht
    · rw [hf] at hu; cases hu
  · intro f
    have hnone : s.leaf d v = none := h.leafNone v hv (.inl (le_refl v))
    have hup := mapCount_update h.shape.nodup hd hv hleaf2 f
    rw [hnone, pointsTo_none, m2.self, pointsTo_some] at hup
    cases hu : s.pmm.used f with
    | true =>
      rw [if_neg (show ¬ c = f from (htook.ne hu).symm)] at hup
      have := h.counted f
      rw [(m2.held f (huse f hu).1).2, (huse f hu).2]
      omega
    | false =>
      have hz : mapCount s R f = 0 := mapCount_eq_zero (fun b hb w hw e1 he1 hfr => by
        have := (h.shape.leafHeld b hb w hw e1 he1).used
        rw [hfr, hu] at this; cases this)
      by_cases hcf : c = f
      · subst hcf
        rw [(m2.held c htook.heldNew.used).2, htook.rcNew]
        simp only [if_true] at hup
        omega
      · rw [if_neg hcf] at hup
        omega
  · rw [m2.kpml4, htook.kpml4, h.kpml4]

/-- **`vmm_copy_user_space`**: the child maps fresh frames with the parent's bytes and flags. -/
theorem vmmCopyUserSpace_spec (h : Shape s R) (hc : Counted s R) (ha : a ∈ R) (hd : d ∈ R)
    (had : a ≠ d) (hempty : ∀ v < userPages, s.leaf d v = none) (hok : (vmmCopyUserSpace s d a).1.pmm.failed = false) :
    (vmmCopyUserSpace s d a).2 = true ∧ Copied s (vmmCopyUserSpace s d a).1 R a d userPages := by
  have hrule := forUserLeaves_rule a s (copyLeaf d) (fun s => s.pmm.failed = true) (fun s => s.pmm.failed = true)
    (fun n s' => Copied s s' R a d n) (fun va pt i s hs => copyLeaf_failed d va pt i s hs) (fun _ hs => hs)
    (Copied.paged ha had) (fun v va i1 s' pt hv hva hi hP hpt => by
      subst hva hi; exact Ends.of_or (copyLeaf_step ha hd had hv h hP hpt)) (Copied.start h hc hempty)
  rcases hrule.or with hf | hr
  · have hf' : (vmmCopyUserSpace s d a).1.pmm.failed = true := hf
    rw [hok] at hf'; cases hf'
  · exact hr

end Noxis
