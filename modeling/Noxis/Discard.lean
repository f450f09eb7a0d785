import Noxis.Atomic
/-!
# Discard — a fork whose child is thrown away

`vmm_create_address_space`, `vmm_cow_user_space` and `vmm_free_user_space` one after the other.  Every frame the first two
took is a table of the child (`Cow.owns`), and the child's tables are in the list the third one frees (`mem_freeList`); every
reference `vmm_cow_user_space` added is the child's, and is dropped again.  So the allocator is where it was
(`fork_discard`); what stays is the parent's read-only marks, and the next write fault takes them off in place.
-/
namespace Noxis

open List Radix Option

/-! ## The child's tables are freed -/

section FreeList

variable {s : Vm} {R : List Nat} {a : Nat}

theorem mem_flatMap_range {L : Nat → List Nat} {i n f : Nat} (hi : i < n) (hf : f ∈ L i) : f ∈ (range n).flatMap L :=
  mem_flatMap.2 ⟨i, mem_range.2 hi, hf⟩

theorem mem_pdFrames {pd i pt : Nat} (hi : i < ENTRIES) (hpt : s.child pd i = some pt) (hps : (s.entry pd i).ps = false) :
    pt ∈ pdFrames s pd := by
  obtain ⟨hpres, rfl⟩ := child_eq_some.1 hpt
  refine mem_flatMap_range hi ?_
  simp only [hpres, hps, Bool.not_true, Bool.or_self, Bool.false_eq_true, if_false]
  exact mem_append_right _ (mem_singleton.2 rfl)

theorem mem_pdptFrames {pdpt i pd t : Nat} (hi : i < ENTRIES) (hpd : s.child pdpt i = some pd)
    (ht : t ∈ pdFrames s pd ++ [pd]) : t ∈ pdptFrames s pdpt := by
  obtain ⟨hpres, rfl⟩ := child_eq_some.1 hpd
  refine mem_flatMap_range hi ?_
  simp only [hpres, Bool.not_true, Bool.false_eq_true, if_false]
  exact ht

theorem mem_freeList_below {pdpt t : Nat} (hpdpt : s.child a 0 = some pdpt) (ht : t ∈ pdptFrames s pdpt ++ [pdpt]) :
    t ∈ freeList s a := by
  obtain ⟨hpres, rfl⟩ := child_eq_some.1 hpdpt
  unfold freeList
  rw [if_pos hpres]
  exact mem_append_left _ ht

/-- **Every table on the way to a page is freed.** -/
theorem mem_freeList (h : Shape s R) (ha : a ∈ R) {p : List Nat} {t : Nat} (hp : WalkPath p)
    (ht : follow s.child a p = some t) : t ∈ freeList s a := by
  obtain ⟨v, q, hv⟩ := hp
  have hi : ∀ n, v / n % 512 < ENTRIES := fun n => Nat.mod_lt _ (by decide)
  -- one case for each length of the path
  match p, hv with
  | [], _ => exact mem_append_right _ (mem_singleton.2 (some.inj ht).symm)
  | [i4], hv =>
    obtain ⟨rfl, -⟩ := cons.inj hv
    rw [follow] at ht
    obtain ⟨pdpt, hpdpt, ht⟩ := bind_eq_some_iff.1 ht
    obtain rfl := some.inj ht
    exact mem_freeList_below hpdpt (mem_append_right _ (mem_singleton.2 rfl))
  | [i4, i3], hv =>
    obtain ⟨rfl, hv1⟩ := cons.inj hv
    obtain ⟨rfl, -⟩ := cons.inj hv1
    rw [follow] at ht
    obtain ⟨pdpt, hpdpt, ht⟩ := bind_eq_some_iff.1 ht
    obtain ⟨pd, hpd, ht⟩ := bind_eq_some_iff.1 ht
    obtain rfl := some.inj ht
    exact mem_freeList_below hpdpt (mem_append_left _ (mem_pdptFrames (hi _) hpd (mem_append_right _ (mem_singleton.2 rfl))))
  | [i4, i3, i2], hv =>
    have htab : TabPath ([i4, i3] ++ [i2]) := WalkPath.tabPath ⟨v, q, hv⟩
    obtain ⟨rfl, hv1⟩ := cons.inj hv
    obtain ⟨rfl, hv2⟩ := cons.inj hv1
    obtain ⟨rfl, -⟩ := cons.inj hv2
    rw [follow] at ht
    obtain ⟨pdpt, hpdpt, ht⟩ := bind_eq_some_iff.1 ht
    obtain ⟨pd, hpd, ht⟩ := bind_eq_some_iff.1 ht
    obtain ⟨pt, hpt, ht⟩ := bind_eq_some_iff.1 ht
    obtain rfl := some.inj ht
    have hpath : follow s.child a [0, v / 2 ^ 18 % 512] = some pd := by
      rw [follow, hpdpt, bind_some, follow, hpd]; rfl
    have hps := (h.tabFlags a ha _ pd _ htab hpath (child_eq_some.1 hpt).1).2.2
    exact mem_freeList_below hpdpt (mem_append_left _
      (mem_pdptFrames (hi _) hpd (mem_append_left _ (mem_pdFrames (hi _) hpt hps))))

end FreeList

/-! ## The free count -/

theorem free_count_freeFrame {p : Pmm} (h : p.free = freeFrames p) (f : Nat) :
    (pmmFreeFrame p f).free = freeFrames (pmmFreeFrame p f) := by
  unfold pmmFreeFrame
  split
  · exact h
  next hc =>
    rw [not_or, not_le, Bool.not_eq_false] at hc
    split
    · exact h
    have hup := freeFrames_update p { p.markFree f with free := p.free + 1, refcount := fun g => if g = f then 0 else p.refcount g }
      hc.1 rfl (fun g hg => by simp only [Pmm.markFree, if_neg hg])
    simp only [hc.2, Pmm.markFree, if_true, Bool.false_eq_true, if_false, add_zero] at hup
    rw [← h] at hup
    exact hup.symm

theorem free_count_freeAll : ∀ (L : List Nat) {p : Pmm}, p.free = freeFrames p →
    (L.foldl pmmFreeFrame p).free = freeFrames (L.foldl pmmFreeFrame p)
  | [], _, h => h
  | g :: L, _, h => free_count_freeAll L (free_count_freeFrame h g)

theorem freeFrames_congr {p p' : Pmm} (hn : p'.nframes = p.nframes) (hu : ∀ f < p.nframes, p'.used f = p.used f) :
    freeFrames p' = freeFrames p := by
  unfold freeFrames
  rw [hn]
  exact Finset.sum_congr rfl (fun f hf => by rw [hu f (Finset.mem_range.1 hf)])

/-! ## The child is made and thrown away -/

section Discard

variable {s : Vm} {R : List Nat} {src : Nat}

/-- What `vmm_create_address_space` and a `vmm_cow_user_space` that returns 0 have done to the frames: `d` is the child. -/
structure CowForked (s s2 : Vm) (R : List Nat) (src d : Nat) : Prop where
  shape : Shape s2 (d :: R)
  nframes : s2.pmm.nframes = s.pmm.nframes
  used : ∀ f, s.pmm.used f = true → s2.pmm.used f = true
  rc : ∀ f, s.pmm.used f = true → s2.pmm.refcount f = max (s.pmm.refcount f) (min 255 (s.pmm.refcount f + leafCount s src f))
  owns : ∀ f, s2.pmm.used f = true → s.pmm.used f = true ∨ f = 0 ∨ ∃ p, WalkPath p ∧ follow s2.child d p = some f
  idle : ∀ f, s2.pmm.used f = false → s2.pmm.refcount f = s.pmm.refcount f
  fresh : ∀ p t, TabPath p → follow s2.child d p = some t → s.pmm.used t = false
  leafSrc : ∀ v < userPages, s2.leaf src v = (s.leaf src v).map demote
  leafDst : ∀ v < userPages, s2.leaf d v = (s.leaf src v).map demote
  leafOther : ∀ b ∈ R, b ≠ src → ∀ v < userPages, s2.leaf b v = s.leaf b v

theorem cowForked (h : Shape s R) (hsrc : src ∈ R) (hdst : (vmmCreateAddressSpace s).1 ≠ 0)
    (hcow : (vmmCowUserSpace (vmmCreateAddressSpace s).2 (vmmCreateAddressSpace s).1 src).2 = true) :
    CowForked s (vmmCowUserSpace (vmmCreateAddressSpace s).2 (vmmCreateAddressSpace s).1 src).1 R src
      (vmmCreateAddressSpace s).1 := by
  obtain ⟨htook, hempty⟩ := vmmCreateAddressSpace_took hdst
  have hshape := vmmCreateAddressSpace_shape h hdst
  generalize (vmmCreateAddressSpace s).1 = d at *
  generalize (vmmCreateAddressSpace s).2 = s1 at *
  have hnd : ∀ b ∈ R, b ≠ d := fun b hb hbd => (nodup_cons.1 hshape.nodup).1 (hbd ▸ hb)
  have hc := ((vmmCowUserSpace_ends hshape (mem_cons_of_mem _ hsrc) mem_cons_self (hnd src hsrc)
    (fun v _ => leaf_of_empty hempty v)).on hcow).resolve_left id
  generalize (vmmCowUserSpace s1 d src).1 = s2 at *
  have hleaf : ∀ b ∈ R, ∀ v, s1.leaf b v = s.leaf b v := fun b hb v => htook.leaf h hb v
  have hpmm : ∀ f, s.pmm.used f = true → s1.pmm.used f = true ∧ s1.pmm.refcount f = s.pmm.refcount f := fun f hf => by
    obtain ⟨hu, hr⟩ := htook.pmm f (htook.ne hf)
    exact ⟨hu.trans hf, hr⟩
  refine ⟨hc.shape, hc.nframes.trans htook.nframes, fun f hf => hc.used f (hpmm f hf).1, fun f hf => ?_, fun f hf => ?_,
    fun f hf => ?_, fun p t hp ht => ?_, fun v hv => ?_, fun v hv => ?_, fun b hb hne v hv => ?_⟩
  · have hsum : ∑ v ∈ Finset.range userPages, pointsTo (s1.leaf src v) f = leafCount s src f :=
      Finset.sum_congr rfl (fun v _ => by rw [hleaf src hsrc v])
    rw [hc.rc f (hpmm f hf).1, hsum, (hpmm f hf).2]
  · by_cases hfd : f = d
    · subst hfd
      exact .inr (.inr ⟨[], ⟨0, nil_prefix⟩, rfl⟩)
    · rcases hc.owns f hf with hu | h0
      · exact .inl ((htook.pmm f hfd).1 ▸ hu)
      · exact .inr h0
  · have hfd : f ≠ d := by
      rintro rfl
      rw [hc.used f htook.heldNew.used] at hf
      cases hf
    rw [hc.idle f hf, (htook.pmm f hfd).2]
  · rcases hc.new p t hp ht with ht | hu
    · obtain ⟨-, rfl⟩ := follow_of_empty hempty hp ht
      exact htook.unused
    · cases hu0 : s.pmm.used t with
      | false => rfl
      | true => rw [(hpmm t hu0).1] at hu; cases hu
  · rw [hc.leafSrc v hv, if_pos hv, hleaf src hsrc v]
  · rw [hc.leafDst v hv, if_pos hv, hleaf src hsrc v]
  · rw [hc.leafOther b (mem_cons_of_mem _ hb) hne (hnd b hb) v hv, hleaf b hb v]

namespace CowForked

variable {s2 : Vm} {d : Nat}

section
variable (h : CowForked s s2 R src d)
include h

theorem leafCount_child (f : Nat) : leafCount s2 d f = leafCount s src f :=
  leafCount_congr f (fun v hv => by
    rw [h.leafDst v hv, Option.map_map]
    rfl)

theorem count_freeList {f : Nat} (hf : s.pmm.used f = true) : (freeList s2 d).count f = leafCount s src f := by
  rw [Noxis.count_freeList h.shape mem_cons_self (fun p hp ht => by rw [h.fresh p f hp ht] at hf; cases hf),
    h.leafCount_child f]

theorem rc_add (hs : Shape s R) (hsrc : src ∈ R) {f : Nat} (hf : s.pmm.used f = true)
    (hrc : s.pmm.refcount f < 255) : s2.pmm.refcount f = s.pmm.refcount f + leafCount s src f := by
  have h1 := h.rc f hf
  have h2 := leafCount_le_one hs hsrc f
  omega

theorem freed_table {p : List Nat} {t : Nat} (hp : WalkPath p) (ht : follow s2.child d p = some t) :
    ((freeList s2 d).foldl pmmFreeFrame s2.pmm).refcount t = 0 ∧ ((freeList s2 d).foldl pmmFreeFrame s2.pmm).used t = false := by
  have hmem := count_pos_iff.2 (mem_freeList h.shape mem_cons_self hp ht)
  have hall := (h.shape.tabHeld d mem_cons_self p t hp.tabPath ht).has.freeAll (freeList s2 d)
  rw [h.shape.tabRc d mem_cons_self p t hp.tabPath ht, show 1 - (freeList s2 d).count t = 0 by omega] at hall
  exact ⟨hall.2.1, hall.2.2⟩

/-- **Every frame is back where it was.** -/
theorem restored (hs : Shape s R) (hsrc : src ∈ R) (hzero : s.pmm.used 0 = true) {f : Nat}
    (hlt : f < s.pmm.nframes) (hclear : s.pmm.used f = false → s.pmm.refcount f = 0) (hrc : s.pmm.refcount f < 255) :
    ((freeList s2 d).foldl pmmFreeFrame s2.pmm).refcount f = s.pmm.refcount f ∧
    ((freeList s2 d).foldl pmmFreeFrame s2.pmm).used f = s.pmm.used f := by
  cases hf : s.pmm.used f with
  | true =>
    have hcount := h.count_freeList hf
    have hadd := h.rc_add hs hsrc hf hrc
    by_cases hmap : leafCount s src f = 0
    · obtain ⟨h1, h2⟩ := foldl_free_ne (freeList s2 d) s2.pmm (count_eq_zero.1 (hcount.trans hmap))
      rw [h1, h2, hadd, hmap, h.used f hf]
      exact ⟨rfl, rfl⟩
    -- the parent maps it: one reference came, one goes
    obtain ⟨v, hv, e, he, rfl⟩ : ∃ v < userPages, ∃ e, s.leaf src v = some e ∧ e.frame = f := by
      by_contra hc
      refine hmap (Finset.sum_eq_zero (fun v hv => ?_))
      cases he : s.leaf src v with
      | none => rfl
      | some e => rw [pointsTo_some, if_neg (fun hx => hc ⟨v, Finset.mem_range.1 hv, e, he, hx⟩)]
    have hheld := hs.leafHeld src hsrc v hv e he
    have hheld2 : s2.pmm.Held e.frame := ⟨by rw [h.nframes]; exact hlt, h.used _ hf, by have := hheld.pos; omega⟩
    have hall := hheld2.has.freeAll (freeList s2 d)
    rw [hcount, hadd, Nat.add_sub_cancel] at hall
    exact ⟨hall.2.1, by rw [hall.2.2, decide_eq_true_iff]; exact hheld.pos⟩
  | false =>
    rw [hclear hf]
    cases hf2 : s2.pmm.used f with
    | true =>
      rcases h.owns f hf2 with hu | rfl | ⟨p, hp, ht⟩
      · rw [hf] at hu; cases hu
      · rw [hf] at hzero; cases hzero
      · exact h.freed_table hp ht
    | false =>
      have hhas : s2.pmm.Has f 0 := ⟨by rw [h.nframes]; exact hlt, by rw [h.idle f hf2]; exact hclear hf, by rw [hf2]; rfl⟩
      have hall := hhas.freeAll (freeList s2 d)
      rw [Nat.zero_sub] at hall
      exact ⟨hall.2.1, hall.2.2⟩

theorem shape_freed (hs : Shape s R) (hsrc : src ∈ R) (hrc : ∀ f < s.pmm.nframes, s.pmm.refcount f < 255) :
    Shape (vmmFreeUserSpace s2 d) R := by
  have hshape := (vmmFreeUserSpace_dropped h.shape mem_cons_self).shape h.shape mem_cons_self (fun b hb v hv e he => ?_)
  · rw [erase_cons_head] at hshape
    exact hshape
  · rw [erase_cons_head] at hb
    obtain ⟨e0, he0, hfr⟩ : ∃ e0, s.leaf b v = some e0 ∧ e0.frame = e.frame := by
      by_cases hbs : b = src
      · subst hbs
        rw [h.leafSrc v hv] at he
        obtain ⟨e0, he0, rfl⟩ := map_eq_some_iff.1 he
        exact ⟨e0, he0, rfl⟩
      · rw [h.leafOther b hb hbs v hv] at he
        exact ⟨e, he, rfl⟩
    have hheld := hs.leafHeld b hb v hv e0 he0
    rw [← hfr, h.leafCount_child, h.rc_add hs hsrc hheld.used (hrc _ hheld.lt)]
    have := hheld.pos
    omega

end

end CowForked

/-- **Forking and discarding the child gives every frame back.**  After `vmm_create_address_space`, a `vmm_cow_user_space`
that returns 0 and `vmm_free_user_space` of the child, every frame's bit and reference count and the free count are what
they were, the parent's pages are on the frames they were on, and a write fault on a page whose frame has one reference is
resolved in place. -/
theorem fork_discard (h : Shape s R) (hsrc : src ∈ R) (htally : Tallied s.pmm)
    (hclear : ∀ f < s.pmm.nframes, s.pmm.used f = false → s.pmm.refcount f = 0)
    (hrc : ∀ f < s.pmm.nframes, s.pmm.refcount f < 255) (hdst : (vmmCreateAddressSpace s).1 ≠ 0)
    (hcow : (vmmCowUserSpace (vmmCreateAddressSpace s).2 (vmmCreateAddressSpace s).1 src).2 = true) :
    let s' := vmmFreeUserSpace (vmmCowUserSpace (vmmCreateAddressSpace s).2 (vmmCreateAddressSpace s).1 src).1
      (vmmCreateAddressSpace s).1
    (∀ f < s.pmm.nframes, s'.pmm.used f = s.pmm.used f ∧ s'.pmm.refcount f = s.pmm.refcount f) ∧
    s'.pmm.free = s.pmm.free ∧
    (∀ v < userPages, (s'.leaf src v).map Pte.frame = (s.leaf src v).map Pte.frame) ∧
    ∀ va < 2 ^ 39, ∀ e, s.leaf src (va / 4096) = some e → s.pmm.refcount e.frame = 1 → ∀ low,
      let r := vmmPageFaultHandler s' src va true true low
      r.2 = some low ∧ r.1.pmm = s'.pmm ∧ ∃ e', r.1.leaf src (va / 4096) = some e' ∧ e'.frame = e.frame ∧ e'.rw = true := by
  have hfork := cowForked h hsrc hdst hcow
  have htally2 := tallied_closed.cow (a := src) (tallied_closed.create htally) (vmmCreateAddressSpace s).1
  generalize (vmmCowUserSpace (vmmCreateAddressSpace s).2 (vmmCreateAddressSpace s).1 src).1 = s2 at *
  generalize (vmmCreateAddressSpace s).1 = d at *
  have hshape := hfork.shape_freed h hsrc hrc
  obtain ⟨h0, hk⟩ := hfork.shape.root d mem_cons_self
  have heq := vmmFreeUserSpace_eq s2 d h0 hk
  have hback : ∀ f < s.pmm.nframes, (vmmFreeUserSpace s2 d).pmm.refcount f = s.pmm.refcount f ∧
      (vmmFreeUserSpace s2 d).pmm.used f = s.pmm.used f := fun f hf => by
    rw [heq]
    exact hfork.restored h hsrc htally.zero hf (hclear f hf) (hrc f hf)
  have hleaf : ∀ v < userPages, (vmmFreeUserSpace s2 d).leaf src v = (s.leaf src v).map demote := fun v hv => by
    rw [(leaf_of_mem (s := s2) (by rw [heq])).1, hfork.leafSrc v hv]
  have hn : (vmmFreeUserSpace s2 d).pmm.nframes = s.pmm.nframes := by
    rw [heq]
    exact (foldl_free_nframes _ _).trans hfork.nframes
  have hcount : (vmmFreeUserSpace s2 d).pmm.free = freeFrames (vmmFreeUserSpace s2 d).pmm := by
    rw [heq]
    exact free_count_freeAll _ htally2.count
  generalize vmmFreeUserSpace s2 d = s3 at *
  refine ⟨fun f hf => (hback f hf).symm, ?_, fun v hv => ?_, fun va hva e he hone low => ?_⟩
  · rw [hcount, htally.count, freeFrames_congr hn (fun f hf => (hback f hf).2)]
  · rw [hleaf v hv, Option.map_map]
    rfl
  · have hv : va / 4096 < userPages := by unfold userPages; omega
    have he3 : s3.leaf src (va / 4096) = some (demote e) := by rw [hleaf _ hv, he]; rfl
    obtain ⟨pt, hpt, -, hpres⟩ := leaf_eq_some.1 he3
    have hheld := h.leafHeld src hsrc _ hv e he
    have hown : s3.pmm.refcount (demote e).frame = 1 := (hback e.frame hheld.lt).1.trans hone
    have hrun := handler_protection hshape hsrc hv hpt he3 (cowFlags_cow e.flags) low
    rw [if_pos hown] at hrun
    dsimp only
    rw [hrun]
    refine ⟨rfl, rfl, _, hshape.trees.leaf_set_self hsrc hpt (h.held_lt hheld) ?_, rfl, ownFlags_rw _⟩
    unfold Pte.present
    rw [ownFlags_present]
    exact hpres

end Discard

/-! ## A small machine -/

def smallVm : Vm := ⟨fun _ _ => 0, ⟨fun f => decide (f ≤ 1), fun f => if f = 1 then 1 else 0, 12, 10, false⟩, 1⟩

def smallParent : Vm := (brkPage 2 0x40000000 (vmmCreateAddressSpace smallVm).2).1

theorem smallParent_shape : Shape smallParent [2] := by
  have h0 : Shape smallVm [] := Ready.shape ⟨by decide, ⟨by decide, by decide, by decide⟩⟩
  obtain ⟨-, -, h1, hempty⟩ := vmmCreateAddressSpace_spec h0 (by decide +kernel)
  set r := vmmCreateAddressSpace smallVm
  rw [show r.1 = 2 by decide +kernel] at h1 hempty
  have hne : r.2.allocFrame.1 ≠ 0 := by decide +kernel
  have hcount : Counted r.2 [2] := fun f => by
    rw [mapCount_eq_zero (fun a ha v _ e he => by
      rw [mem_singleton.1 ha, leaf_of_empty hempty] at he; cases he)]
    exact Nat.zero_le _
  have hva : 0x40000000 / 4096 < userPages := by unfold userPages; decide
  have hshow := map_fresh h1 hcount mem_cons_self hva
    ((took_of_ne hne).filled (fun _ => 0)) (mem_setFrame) (by decide +kernel)
  unfold smallParent brkPage
  dsimp only
  rw [if_neg hne]
  exact hshow.shape

/-- A process with one page forks, and its child is discarded. -/
theorem fork_discard_small : let c := vmmCreateAddressSpace smallParent
    let s' := vmmFreeUserSpace (vmmCowUserSpace c.2 c.1 2).1 c.1
    (vmmCowUserSpace c.2 c.1 2).2 = true ∧ s'.pmm.free = smallParent.pmm.free ∧
    (vmmPageFaultHandler s' 2 0x40000ABC true true 0x50000000).2 = some 0x50000000 := by
  have hcow : (vmmCowUserSpace (vmmCreateAddressSpace smallParent).2 (vmmCreateAddressSpace smallParent).1 2).2 = true := by
    decide +kernel
  have htally : Tallied smallParent.pmm := tallied_closed.brkPage (tallied_closed.create ⟨by decide, by decide +kernel⟩) _
  obtain ⟨-, hfree, -, hfault⟩ := fork_discard smallParent_shape mem_cons_self htally (by decide +kernel) (by decide +kernel)
    (by decide +kernel) hcow
  exact ⟨hcow, hfree, (hfault 0x40000ABC (by decide) _ (show smallParent.leaf 2 _ = some ⟨3, 7⟩ by decide +kernel)
    (by decide +kernel) _).1⟩

end Noxis
