import Noxis.VmMap
/-!
# VmCount — how many leaf entries map a frame

`mapCount s R f` counts the present leaf entries of the address spaces `R` that map the frame `f`.  `mapCount_update` is
its only step lemma: storing one leaf entry takes the old frame off and puts the new one on.  `Counted` is the invariant
the reference counts are kept for, and `sole_owner` is the one use the code makes of it.
-/
namespace Noxis

open List Radix

def pointsTo (o : Option Pte) (f : Nat) : Nat := if o.map Pte.frame = some f then 1 else 0

def leafCount (s : Vm) (a f : Nat) : Nat := ∑ v ∈ Finset.range userPages, pointsTo (s.leaf a v) f

/-- The number of present leaf entries of the address spaces `R` that map `f`. -/
def mapCount (s : Vm) (R : List Nat) (f : Nat) : Nat := (R.map (fun a => leafCount s a f)).sum

theorem pointsTo_none (f : Nat) : pointsTo none f = 0 := rfl

theorem pointsTo_some (e : Pte) (f : Nat) : pointsTo (some e) f = if e.frame = f then 1 else 0 := by
  unfold pointsTo; simp

variable {s s' : Vm} {a b d v : Nat}

theorem leafCount_congr (f : Nat)
    (h : ∀ v < userPages, (s'.leaf b v).map Pte.frame = (s.leaf a v).map Pte.frame) : leafCount s' b f = leafCount s a f :=
  Finset.sum_congr rfl (fun v hv => by unfold pointsTo; rw [h v (Finset.mem_range.1 hv)])

variable {R : List Nat}

theorem mapCount_congr (f : Nat) (h : ∀ a ∈ R, ∀ v < userPages, (s'.leaf a v).map Pte.frame = (s.leaf a v).map Pte.frame) :
    mapCount s' R f = mapCount s R f := by
  unfold mapCount
  rw [map_congr_left (fun a ha => leafCount_congr f (h a ha))]

theorem mapCount_cons (s : Vm) (d : Nat) (R : List Nat) (f : Nat) :
    mapCount s (d :: R) f = leafCount s d f + mapCount s R f := by
  unfold mapCount; rw [map_cons, sum_cons]

theorem leafCount_empty (h : ∀ v < userPages, s.leaf d v = none) (f : Nat) : leafCount s d f = 0 :=
  Finset.sum_eq_zero (fun v hv => by rw [h v (Finset.mem_range.1 hv), pointsTo_none])

theorem leafCount_update (s s' : Vm) (hv : v < userPages) (h : ∀ w < userPages, w ≠ v → s'.leaf a w = s.leaf a w) (f : Nat) :
    leafCount s' a f + pointsTo (s.leaf a v) f = leafCount s a f + pointsTo (s'.leaf a v) f := by
  unfold leafCount
  have hm := Finset.mem_range.2 hv
  rw [← Finset.add_sum_erase _ _ hm, ← Finset.add_sum_erase _ (fun w => pointsTo (s.leaf a w) f) hm]
  rw [Finset.sum_congr rfl (fun w hw => by
    rw [h w (Finset.mem_range.1 (Finset.mem_of_mem_erase hw)) (Finset.ne_of_mem_erase hw)])]
  omega

/-- **One leaf entry stored**: the frame it mapped loses one, the frame it maps gains one. -/
theorem mapCount_update {s s' : Vm} : ∀ {R : List Nat}, R.Nodup → ∀ {a v : Nat}, a ∈ R → v < userPages →
    (∀ b ∈ R, ∀ w < userPages, ¬ (b = a ∧ w = v) → s'.leaf b w = s.leaf b w) → ∀ f,
    mapCount s' R f + pointsTo (s.leaf a v) f = mapCount s R f + pointsTo (s'.leaf a v) f
  | [], _, _, _, ha, _, _, _ => by cases ha
  | b :: R, hnd, a, v, ha, hv, h, f => by
    rw [mapCount_cons, mapCount_cons]
    obtain ⟨hb, hnd⟩ := nodup_cons.1 hnd
    by_cases hab : a = b
    · subst hab
      have h1 := leafCount_update s s' hv
        (fun w hw hne => h a mem_cons_self w hw (fun hc => hne hc.2)) f
      have h2 : mapCount s' R f = mapCount s R f := mapCount_congr f (fun c hc w hw => congrArg _
        (h c (mem_cons_of_mem _ hc) w hw (fun hx => hb (hx.1 ▸ hc))))
      omega
    · have ha' : a ∈ R := (mem_cons.1 ha).resolve_left hab
      have h1 : leafCount s' b f = leafCount s b f := leafCount_congr f (fun w hw => congrArg _
        (h b mem_cons_self w hw (fun hx => hab hx.1.symm)))
      have h2 := mapCount_update hnd ha' hv (fun c hc w hw hx => h c (mem_cons_of_mem _ hc) w hw hx) f
      omega

theorem pointsTo_le_leafCount (s : Vm) (a v f : Nat) (hv : v < userPages) : pointsTo (s.leaf a v) f ≤ leafCount s a f :=
  Finset.single_le_sum (f := fun w => pointsTo (s.leaf a w) f) (fun _ _ => Nat.zero_le _) (Finset.mem_range.2 hv)

theorem leafCount_le_mapCount (s : Vm) (f : Nat) : ∀ {R : List Nat} {a : Nat}, a ∈ R → leafCount s a f ≤ mapCount s R f
  | [], _, ha => by cases ha
  | b :: R, a, ha => by
    rw [mapCount_cons]
    rcases mem_cons.1 ha with rfl | ha
    · omega
    · have := leafCount_le_mapCount s f ha
      omega

theorem mapCount_perm (s : Vm) (f : Nat) {R' : List Nat} (h : R.Perm R') : mapCount s R f = mapCount s R' f :=
  (h.map _).sum_eq

theorem mapCount_erase (s : Vm) (f : Nat) (ha : a ∈ R) : mapCount s R f = leafCount s a f + mapCount s (R.erase a) f := by
  rw [← mapCount_cons]
  exact mapCount_perm s f (perm_cons_erase ha)

variable {e : Pte}

theorem one_le_mapCount (ha : a ∈ R) (hv : v < userPages) (he : s.leaf a v = some e) : 1 ≤ mapCount s R e.frame := by
  have h1 := pointsTo_le_leafCount s a v e.frame hv
  have h2 := leafCount_le_mapCount s e.frame ha
  rw [he, pointsTo_some, if_pos rfl] at h1
  omega

theorem mapCount_eq_zero {f : Nat}
    (h : ∀ a ∈ R, ∀ v < userPages, ∀ e, s.leaf a v = some e → e.frame ≠ f) : mapCount s R f = 0 := by
  refine sum_eq_zero (fun x hx => ?_)
  obtain ⟨a, ha, rfl⟩ := mem_map.1 hx
  refine Finset.sum_eq_zero (fun v hv => ?_)
  cases he : s.leaf a v with
  | none => rfl
  | some e => rw [pointsTo_some, if_neg (h a ha v (Finset.mem_range.1 hv) e he)]

theorem leafCount_le_one (h : Shape s R) (ha : a ∈ R) (f : Nat) : leafCount s a f ≤ 1 := by
  by_cases hex : ∃ v < userPages, ∃ e, s.leaf a v = some e ∧ e.frame = f
  · obtain ⟨v, hv, e, he, rfl⟩ := hex
    unfold leafCount
    rw [Finset.sum_eq_single_of_mem v (Finset.mem_range.2 hv)]
    · rw [he, pointsTo_some, if_pos rfl]
    · intro w hw hne
      cases he' : s.leaf a w with
      | none => rfl
      | some e' =>
        rw [pointsTo_some, if_neg]
        intro hc
        exact hne (h.leafInj a ha w (Finset.mem_range.1 hw) v hv e' e he' he hc)
  · rw [leafCount, Finset.sum_eq_zero]
    · omega
    · intro v hv
      cases he : s.leaf a v with
      | none => rfl
      | some e => rw [pointsTo_some, if_neg (fun hc => hex ⟨v, Finset.mem_range.1 hv, e, he, hc⟩)]

def mappers (s : Vm) (R : List Nat) (f : Nat) : Nat := R.countP (fun a => decide (0 < leafCount s a f))

theorem mappers_eq (h : Shape s R) (f : Nat) : mappers s R f = mapCount s R f := by
  have key : ∀ L : List Nat, (∀ a ∈ L, a ∈ R) → L.countP (fun a => decide (0 < leafCount s a f)) = mapCount s L f := by
    intro L
    induction L with
    | nil => intro _; rfl
    | cons a L ih =>
      intro hL
      rw [countP_cons, mapCount_cons, ih (fun b hb => hL b (mem_cons_of_mem _ hb))]
      have := leafCount_le_one h (hL a mem_cons_self) f
      by_cases hp : 0 < leafCount s a f
      · simp only [hp, decide_true, if_true]; omega
      · simp only [hp, decide_false, Bool.false_eq_true, if_false]; omega
  exact key R (fun _ ha => ha)

/-- `g_refcount` of a frame is at least the number of leaf entries that map it. -/
def Counted (s : Vm) (R : List Nat) : Prop := ∀ f, mapCount s R f ≤ s.pmm.refcount f

/-- **The sole-owner shortcut is right**: a frame mapped at most once has no other leaf. -/
theorem sole_owner {w : Nat} {e' : Pte} (ha : a ∈ R) (hv : v < userPages)
    (he : s.leaf a v = some e) (hle : mapCount s R e.frame ≤ 1) (hb : b ∈ R) (hw : w < userPages)
    (he' : s.leaf b w = some e') (hfr : e'.frame = e.frame) : b = a ∧ w = v := by
  have self : ∀ x y z, y < userPages → s.leaf x y = some z → z.frame = e.frame → 1 ≤ leafCount s x e.frame := by
    intro x y z hy hz hzf
    have := pointsTo_le_leafCount s x y e.frame hy
    rw [hz, pointsTo_some, if_pos hzf] at this
    exact this
  have h1 := self a v e hv he rfl
  have h2 := self b w e' hw he' hfr
  -- two address spaces, or two pages of one, would already make two
  have hba : b = a := by
    by_contra hne
    have h3 := mapCount_erase s e.frame ha
    have h4 := leafCount_le_mapCount s e.frame ((mem_erase_of_ne hne).2 hb)
    omega
  subst hba
  refine ⟨rfl, ?_⟩
  by_contra hne
  have h3 := Finset.add_le_sum (f := fun y => pointsTo (s.leaf b y) e.frame) (fun _ _ => Nat.zero_le _)
    (Finset.mem_range.2 hw) (Finset.mem_range.2 hv) hne
  simp only [he, he', pointsTo_some, if_pos hfr, if_true] at h3
  have h4 := leafCount_le_mapCount s e.frame hb
  unfold leafCount at h4
  omega

theorem Took.counted (h : Took s s' d) (hs : Shape s R) (hc : Counted s R) : Counted s' R := by
  intro f
  rw [mapCount_congr f (fun a ha v _ => congrArg _ (h.leaf hs ha v))]
  by_cases hfd : f = d
  · subst hfd
    rw [mapCount_eq_zero (hs.fresh h.unused).2.1]
    omega
  · rw [(h.pmm f hfd).2]
    exact hc f

structure Sound (s : Vm) (R : List Nat) : Prop where
  shape : Shape s R
  counted : Counted s R

namespace Sound

variable {s : Vm} {R : List Nat}

theorem perm (h : Sound s R) {R' : List Nat} (hp : R.Perm R') : Sound s R' :=
  ⟨h.shape.perm hp, fun f => by rw [← mapCount_perm s f hp]; exact h.counted f⟩

theorem of_cons {d : Nat} (h : Sound s (d :: R)) : Sound s R := by
  refine ⟨h.shape.of_subset (nodup_cons.1 h.shape.nodup).2 (fun _ ha => mem_cons_of_mem _ ha), fun f => ?_⟩
  have := h.counted f
  rw [mapCount_cons] at this
  omega

theorem create (h : Sound s R) (hok : (vmmCreateAddressSpace s).2.pmm.failed = false) :
    let r := vmmCreateAddressSpace s
    r.1 ≠ 0 ∧ Sound r.2 (r.1 :: R) ∧ ∀ v < userPages, r.2.leaf r.1 v = none := by
  obtain ⟨h0, htook, hshape, hempty⟩ := vmmCreateAddressSpace_spec h.shape hok
  have hnone : ∀ v < userPages, (vmmCreateAddressSpace s).2.leaf (vmmCreateAddressSpace s).1 v = none :=
    fun v _ => leaf_of_empty hempty v
  refine ⟨h0, ⟨hshape, fun f => ?_⟩, hnone⟩
  rw [mapCount_cons, leafCount_empty hnone f, zero_add]
  exact htook.counted h.shape h.counted f

end Sound

/-- The invariant of whatever goes on after a failed allocation: one has failed, or everything is in order. -/
def Intact (R : List Nat) (s : Vm) : Prop := s.pmm.failed = true ∨ Sound s R

theorem Intact.sound (h : Intact R s) (hok : s.pmm.failed = false) : Sound s R :=
  h.resolve_left (fun hf => by rw [hok] at hf; cases hf)

end Noxis
