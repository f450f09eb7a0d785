import Noxis.VmFork
import Noxis.VmAccess
/-!
# VmRoom — enough free frames, and no allocation fails

`Room p k` says that `k` allocations in a row would succeed.  Every vmm operation has a price in frames: three for a mapped
page, one for an address space, three for every page shared by `vmmCowUserSpace` and four for every page copied by
`vmmCopyUserSpace`.  With that much room no allocation on the way fails and the rest of the room is left.
-/
namespace Noxis

open Radix Finset

def freeFrames (p : Pmm) : Nat := ∑ f ∈ Finset.range p.nframes, if p.used f then 0 else 1

variable {p : Pmm}

theorem freeFrames_eq_zero : freeFrames p = 0 ↔ ∀ f < p.nframes, p.used f = true := by
  unfold freeFrames
  rw [sum_eq_zero_iff]
  refine forall_congr' fun f => ?_
  rw [mem_range]
  cases p.used f <;> simp

/-- No allocation has failed, frame 0 is reserved, and at least `k` frames are free. -/
structure Room (p : Pmm) (k : Nat) : Prop where
  failed : p.failed = false
  zero : p.used 0 = true ∧ p.refcount 0 = 0
  enough : k ≤ freeFrames p

variable {k f a va v d pt i1 : Nat}

theorem Room.mono {j : Nat} (h : Room p k) (hj : j ≤ k) : Room p j := ⟨h.failed, h.zero, hj.trans h.enough⟩

theorem freeFrames_update (p p' : Pmm) (hf : f < p.nframes) (hn : p'.nframes = p.nframes)
    (hoth : ∀ g, g ≠ f → p'.used g = p.used g) :
    freeFrames p' + (if p.used f then 0 else 1) = freeFrames p + (if p'.used f then 0 else 1) := by
  unfold freeFrames
  rw [hn]
  have hm := mem_range.2 hf
  rw [← add_sum_erase _ _ hm, ← add_sum_erase _ (fun g => if p.used g then 0 else 1) hm,
    sum_congr rfl (fun g hg => by rw [hoth g (ne_of_mem_erase hg)])]
  omega

theorem Room.alloc (h : Room p (k + 1)) : (pmmAllocFrame p).1 ≠ 0 ∧ Room (pmmAllocFrame p).2 k := by
  have hex : ∃ f ∈ List.range p.nframes, (!p.used f) = true := by
    by_contra hc
    push Not at hc
    have : freeFrames p = 0 := sum_eq_zero (fun f hf => by
      have := hc f (List.mem_range.2 (mem_range.1 hf))
      simp only [ne_eq, Bool.not_eq_true', Bool.not_eq_false] at this
      rw [this]; rfl)
    have := h.enough
    omega
  have hok : (pmmAllocFrame p).2.failed = false := by
    unfold pmmAllocFrame
    cases hf : (List.range p.nframes).find? (fun f => !p.used f) with
    | none =>
      obtain ⟨f, hfm, hfu⟩ := hex
      exact absurd hfu (List.find?_eq_none.1 hf f hfm)
    | some f =>
      have hu := List.find?_some hf
      have h0 : f ≠ 0 := by
        rintro rfl
        rw [h.zero.1] at hu; cases hu
      simp only [h.failed, Bool.false_or, decide_eq_false_iff_not]
      exact h0
  obtain ⟨h0, hu, hh, hr, hn, hoth⟩ := pmmAllocFrame_spec p hok
  refine ⟨h0, hok, ?_, ?_⟩
  · rw [(hoth 0 (Ne.symm h0)).1, (hoth 0 (Ne.symm h0)).2]; exact h.zero
  · have hup := freeFrames_update p (pmmAllocFrame p).2 (by rw [← hn]; exact hh.lt) hn (fun g hg => (hoth g hg).1)
    rw [hu, hh.used] at hup
    have := h.enough
    simp only [Bool.false_eq_true, if_false, if_true] at hup
    omega

theorem Room.free (h : Room p k) (hf : p.Held f) : Room (pmmFreeFrame p f) k := by
  have h0 : f ≠ 0 := by
    rintro rfl
    have := hf.pos
    rw [h.zero.2] at this; omega
  refine ⟨by rw [pmmFreeFrame_failed]; exact h.failed, ?_, ?_⟩
  · obtain ⟨h1, h2⟩ := pmmFreeFrame_spec p f hf 0
    rw [h1, h2, if_neg (Ne.symm h0), if_neg (Ne.symm h0)]
    exact h.zero
  · have hup := freeFrames_update p (pmmFreeFrame p f) hf.lt (pmmFreeFrame_nframes p f) (fun g hg => by
      rw [(pmmFreeFrame_spec p f hf g).2, if_neg hg])
    rw [hf.used] at hup
    have := h.enough
    simp only [if_true] at hup
    omega

theorem freeFrames_addref (p : Pmm) (f : Nat) : freeFrames (pmmAddref p f) = freeFrames p := by
  unfold freeFrames
  rw [pmmAddref_nframes]
  exact sum_congr rfl (fun g _ => by rw [pmmAddref_used])

theorem Room.addref (h : Room p k) (h0 : f ≠ 0) : Room (pmmAddref p f) k := by
  refine ⟨by rw [pmmAddref_failed]; exact h.failed, ?_, ?_⟩
  · rw [pmmAddref_used]
    refine ⟨h.zero.1, ?_⟩
    unfold pmmAddref
    split
    · simp only [if_neg (Ne.symm h0)]; exact h.zero.2
    · exact h.zero.2
  · rw [freeFrames_addref]
    exact h.enough

/-! ## The price of each operation -/

variable {s : Vm}

theorem ensureTable_room {t i : Nat} {u : Flags} (h : Room s.pmm (k + 1)) : Room (ensureTable s t i u).1.pmm k := by
  unfold ensureTable
  simp only
  split
  · exact h.mono (by omega)
  · split
    · exact h.alloc.2
    · exact h.alloc.2

theorem ensureTables_room {u : Flags} : ∀ (l : List Nat) {s : Vm} {k t : Nat}, Room s.pmm (k + l.length) →
    Room (ensureTables u l s t).1.pmm k
  | [], _, _, _, h => h
  | i :: l, s, k, t, h => by
    rw [ensureTables]
    have h1 : Room (ensureTable s t i u).1.pmm (k + l.length) := ensureTable_room (by
      rw [List.length_cons, ← add_assoc] at h; exact h)
    cases he : ensureTable s t i u with | mk s1 b =>
    rw [he] at h1
    cases b with
    | false => exact h1.mono (by omega)
    | true => exact ensureTables_room l h1

theorem vmmMapPageInto_room {pa : Nat} {fl : Flags} (h : Room s.pmm (k + 3)) : Room (vmmMapPageInto s a va pa fl).1.pmm k := by
  have h1 := ensureTables_room (u := fl &&& PAGE_USER) (t := a) [ix4 va, ix3 va, ix2 va] h
  unfold vmmMapPageInto
  cases he : ensureTables (fl &&& PAGE_USER) [ix4 va, ix3 va, ix2 va] s a with | mk s1 o =>
  rw [he] at h1
  cases o <;> exact h1

theorem vmmCreateAddressSpace_room (h : Room s.pmm (k + 1)) : Room (vmmCreateAddressSpace s).2.pmm k := by
  unfold vmmCreateAddressSpace
  simp only
  split <;> exact h.alloc.2

variable {R : List Nat}

theorem userAccess_room (hs : Shape s R) (ha : a ∈ R) (va low : Nat)
    (w : Bool) (h : Room s.pmm (k + 4)) : Room (userAccess s a va w low).1.pmm k := by
  by_cases hva : va < 2 ^ 39
  swap
  · unfold userAccess; rw [if_neg hva]; exact h.mono (by omega)
  have hv : va / 4096 < userPages := by unfold userPages; omega
  have htr := hwTranslate_eq hs ha hv w
  cases he : s.leaf a (va / 4096) with
  | none =>
    simp only [he] at htr
    rw [(userAccess_of_fault low hva htr).1, handler_missing hs ha]
    split
    · split
      · exact (Room.alloc (k := k + 3) h).2.mono (by omega)
      · exact vmmMapPageInto_room (Room.alloc (k := k + 3) h).2
    · exact h.mono (by omega)
  | some e =>
    simp only [he] at htr
    by_cases hallow : (!w || e.rw) = true
    · simp only [hallow, if_true] at htr
      unfold userAccess
      simp only [if_pos hva, htr]
      exact h.mono (by omega)
    simp only [hallow, Bool.false_eq_true, if_false] at htr
    simp only [Bool.or_eq_true, Bool.not_eq_true', not_or, Bool.not_eq_false, Bool.not_eq_true] at hallow
    obtain ⟨rfl, hrw⟩ := hallow
    have hcow : e.cow = true := by
      have := (hs.leafFlags a ha _ hv e he).2
      rw [hrw] at this
      simpa using this.symm
    obtain ⟨pt, hpt, -, -⟩ := leaf_eq_some.1 he
    rw [(userAccess_of_fault low hva htr).1, handler_protection hs ha hv hpt he hcow]
    have hroom := (Room.alloc (k := k + 3) h).2
    split
    · exact h.mono (by omega)
    · split
      · exact hroom.mono (by omega)
      · refine Room.mono (Room.free hroom ?_) (by omega)
        exact (hs.leafHeld a ha _ hv e he).alloc hroom.failed

/-! ## The price of a fork -/

def pagesFrom (s : Vm) (a n : Nat) : Nat := ∑ v ∈ Finset.Ico n userPages, if (s.leaf a v).isSome then 1 else 0

theorem pagesFrom_skip {n m : Nat} (hnm : n ≤ m) (hm : m ≤ userPages)
    (h : ∀ v, n ≤ v → v < m → s.leaf a v = none) : pagesFrom s a n = pagesFrom s a m := by
  unfold pagesFrom
  rw [← sum_Ico_consecutive _ hnm hm, sum_eq_zero, zero_add]
  intro v hv
  rw [mem_Ico] at hv
  rw [h v hv.1 hv.2]; rfl

theorem pagesFrom_step {e : Pte} (hv : v < userPages) (he : s.leaf a v = some e) :
    pagesFrom s a v = pagesFrom s a (v + 1) + 1 := by
  unfold pagesFrom
  rw [sum_eq_sum_Ico_succ_bot hv, he]
  simp only [Option.isSome_some, if_true]
  omega

theorem Room.ne_zero (h : Room p k) (hf : p.Held f) : f ≠ 0 := by
  rintro rfl
  have := hf.pos
  rw [h.zero.2] at this
  omega

theorem cowLeaf_room (h : Room s.pmm (k + 3))
    (h0 : (s.entry pt i1).present = true → (s.entry pt i1).frame ≠ 0) : Room (cowLeaf d va pt i1 s).1.pmm k := by
  unfold cowLeaf
  simp only
  split
  · exact h.mono (by omega)
  rename_i hpres
  have h0 := h0 (by simpa using hpres)
  have h1 : Room (vmmMapPageInto (s.setEntry pt i1 ⟨(s.entry pt i1).frame, cowFlags (s.entry pt i1).flags⟩) d va
      (s.entry pt i1).frame (cowFlags (s.entry pt i1).flags &&& ~~~PAGE_PRESENT)).1.pmm k := vmmMapPageInto_room h
  split
  next s2 heq => rw [heq] at h1; exact h1
  next s2 heq => rw [heq] at h1; exact h1.addref h0

theorem copyLeaf_room (h : Room s.pmm (k + 4)) : Room (copyLeaf d va pt i1 s).1.pmm k := by
  have h1 := (Room.alloc (k := k + 3) h).2
  unfold copyLeaf
  simp only
  split
  · exact h.mono (by omega)
  · split
    · exact h1.mono (by omega)
    · exact vmmMapPageInto_room h1

theorem forUserLeaves_room {body : Nat → Nat → Nat → Vm → Vm × Bool} {P : Nat → Vm → Prop} {c : Nat}
    (hP : Paged a s P) (hleaf : ∀ n s', P n s' → ∀ v, n ≤ v → v < userPages → s'.leaf a v = s.leaf a v)
    (hstep : ∀ v s' pt, v < userPages → P v s' → follow s'.child a (ptPath v) = some pt →
      (body (v * 4096) pt (v % 512) s').1.pmm.failed = true ∨
        ((body (v * 4096) pt (v % 512) s').2 = true ∧ P (v + 1) (body (v * 4096) pt (v % 512) s').1))
    (hnone : ∀ v s' pt, P v s' → follow s'.child a (ptPath v) = some pt → s'.leaf a v = none →
      (body (v * 4096) pt (v % 512) s').1 = s')
    (hcost : ∀ v s' pt j, v < userPages → P v s' → follow s'.child a (ptPath v) = some pt → Room s'.pmm (j + c) →
      Room (body (v * 4096) pt (v % 512) s').1.pmm j)
    (h0 : P 0 s) (hroom : Room s.pmm (k + c * pagesFrom s a 0)) : Room (forUserLeaves body s a).1.pmm k := by
  have hrule := forUserLeaves_rule a s body (fun _ => False) (fun _ => False)
    (fun n s' => P n s' ∧ Room s'.pmm (k + c * pagesFrom s a n))
    (fun _ _ _ _ h => h) (fun _ h => h) ⟨fun n s' h => hP.path n s' h.1, fun n s' h => hP.ps n s' h.1,
      fun n m s' h h1 h2 h3 => ⟨hP.skip n m s' h.1 h1 h2 h3, by
        rw [← pagesFrom_skip h1 h2 (fun v hv1 hv2 => by
          rw [← hleaf n s' h.1 v hv1 (by omega)]; exact h3 v hv1 hv2)]
        exact h.2⟩⟩
    (fun v va i1 s' pt hv hva hi h hpt => by
      subst hva hi
      refine Ends.of_or (.inr ?_)
      have hroom' : Room (body (v * 4096) pt (v % 512) s').1.pmm (k + c * pagesFrom s a (v + 1)) := by
        cases he : s.leaf a v with
        | none =>
          have hn : s'.leaf a v = none := by rw [hleaf v s' h.1 v (le_refl v) hv]; exact he
          rw [hnone v s' pt h.1 hpt hn, ← pagesFrom_skip (by omega : v ≤ v + 1) (by omega) (fun w h1 h2 => by
            obtain rfl : w = v := by omega
            exact he)]
          exact h.2
        | some e =>
          refine hcost v s' pt _ hv h.1 hpt ?_
          have := h.2
          rw [pagesFrom_step hv he, Nat.mul_add, mul_one, ← add_assoc] at this
          exact this
      rcases hstep v s' pt hv h.1 hpt with hf | hr
      · rw [hroom'.failed] at hf; cases hf
      · exact ⟨hr.1, hr.2, hroom'⟩) ⟨h0, hroom⟩
  have := (hrule.or.resolve_left id).2.2
  exact this.mono (by omega)

/-- **`vmm_cow_user_space` succeeds with three frames for every page of the source.** -/
theorem vmmCowUserSpace_room (h : Shape s R) (ha : a ∈ R) (hd : d ∈ R) (had : a ≠ d)
    (hempty : ∀ v < userPages, s.leaf d v = none) (hroom : Room s.pmm (k + 3 * pagesFrom s a 0)) :
    Room (vmmCowUserSpace s d a).1.pmm k := by
  refine forUserLeaves_room (Cow.paged ha had)
    (fun n s' hP v h1 hv => by rw [hP.leafSrc v hv, if_neg (by omega)])
    (fun v s' pt hv hP hpt => cowLeaf_or ha hd had hv hP hpt)
    (fun v s' pt _ hpt hn => by rw [cowLeaf_none hpt hn]) (fun v s' pt j hv hP hpt hr => cowLeaf_room hr (fun hpres => ?_))
    (Cow.start h hempty) hroom
  exact hr.ne_zero (hP.shape.leafHeld a ha v hv _ (leaf_eq_some.2 ⟨pt, hpt, rfl, hpres⟩))

/-- **`vmm_copy_user_space` succeeds with four frames for every page of the source.** -/
theorem vmmCopyUserSpace_room (h : Shape s R) (hc : Counted s R) (ha : a ∈ R)
    (hd : d ∈ R) (had : a ≠ d) (hempty : ∀ v < userPages, s.leaf d v = none) (hroom : Room s.pmm (k + 4 * pagesFrom s a 0)) :
    Room (vmmCopyUserSpace s d a).1.pmm k := by
  refine forUserLeaves_room (Copied.paged ha had)
    (fun n s' hP v _ hv => hP.leafOther a ha had v hv)
    (fun v s' pt hv hP hpt => copyLeaf_step ha hd had hv h hP hpt)
    (fun v s' pt _ hpt hn => by rw [copyLeaf_none hpt hn]) (fun v s' pt j hv hP hpt hr => copyLeaf_room hr)
    (Copied.start h hc hempty) hroom

/-! ## The room after boot -/

theorem pmmInit_room : Room (pmmInit (128 * 1024 * 1024)) 3584 := by
  set r := pmmInit (128 * 1024 * 1024)
  have hused : ∀ f, r.used f =
      (decide (f < 32768) && (decide (f < 512) || (decide (4096 ≤ f) && decide (f < 12288)))) := fun f => rfl
  refine ⟨rfl, ⟨rfl, rfl⟩, ?_⟩
  unfold freeFrames
  have hsub : Finset.Ico 512 4096 ⊆ range r.nframes := by
    intro f hf
    rw [mem_Ico] at hf
    rw [mem_range, show r.nframes = 32768 from rfl]
    omega
  refine le_trans ?_ (sum_le_sum_of_subset hsub)
  rw [sum_congr rfl (g := fun _ => 1) (fun f hf => ?_)]
  · rw [sum_const, Nat.card_Ico]; rfl
  · rw [mem_Ico] at hf
    rw [hused, if_neg]
    simp only [Bool.and_eq_true, Bool.or_eq_true, decide_eq_true_eq]
    omega

theorem pagesFrom_le_one (h : ∀ w < userPages, w ≠ v → s.leaf a w = none) : pagesFrom s a 0 ≤ 1 := by
  unfold pagesFrom
  calc ∑ w ∈ Finset.Ico 0 userPages, (if (s.leaf a w).isSome then 1 else 0)
      ≤ ∑ w ∈ Finset.Ico 0 userPages, (if w = v then 1 else 0) := by
        refine sum_le_sum (fun w hw => ?_)
        by_cases hwv : w = v
        · rw [if_pos hwv]; split <;> omega
        · rw [h w (mem_Ico.1 hw).2 hwv]; simp
    _ ≤ 1 := by
        rw [sum_ite_eq']
        split <;> omega

end Noxis
