import Noxis.Loop
/-!
# Pmm — the bitmap frame allocator (`mm/phys/pmm.c`)

A physical page is named by its frame number, `phys / PAGE_SIZE`; frame 0 is the source's failure value, as physical
address 0 is.  `used` is `g_bitmap`, one bit per frame, and `refcount` is `g_refcount`, whose bytes saturate at 255 in
`pmmAddref`.  `failed` is a history variable: `pmm_alloc_frame` has returned 0.
-/
namespace Noxis

open List Bool

def PAGE_SIZE : Nat := 4096
def MAX_FRAMES : Nat := 2 ^ 20
def RESERVED_END : Nat := 2 * 1024 * 1024

structure Pmm where
  used : Nat → Bool
  refcount : Nat → Nat
  nframes : Nat
  free : Nat
  failed : Bool

def Pmm.markUsed (p : Pmm) (f : Nat) : Pmm := { p with used := fun g => if g = f then true else p.used g }
def Pmm.markFree (p : Pmm) (f : Nat) : Pmm := { p with used := fun g => if g = f then false else p.used g }

/-- `pmm_init`: the first 2 MB and the kernel heap window `[16 MB, 48 MB)` are marked used. -/
def pmmInit (ramBytes : Nat) : Pmm :=
  let nframes := if ramBytes / PAGE_SIZE > MAX_FRAMES then MAX_FRAMES else ramBytes / PAGE_SIZE
  let reserved := RESERVED_END / PAGE_SIZE
  let hstart := 16 * 1024 * 1024 / PAGE_SIZE
  let hend := 48 * 1024 * 1024 / PAGE_SIZE
  { used := fun f => decide (f < nframes) && (decide (f < reserved) || (decide (hstart ≤ f) && decide (f < hend)))
    refcount := fun _ => 0
    nframes := nframes
    -- the heap loop counts down only the frames that exist and were not reserved already
    free := nframes - reserved - (min hend nframes - hstart)
    failed := false }

/-- `pmm_alloc_frame`: the lowest clear bit, or 0. -/
def pmmAllocFrame (p : Pmm) : Nat × Pmm :=
  match (List.range p.nframes).find? (fun f => !p.used f) with
  | some f => (f, { p.markUsed f with free := p.free - 1, refcount := fun g => if g = f then 1 else p.refcount g,
                                      failed := p.failed || decide (f = 0) })
  | none => (0, { p with failed := true })

/-- `pmm_free_frame`: drop one reference; the last one clears the bit. -/
def pmmFreeFrame (p : Pmm) (f : Nat) : Pmm :=
  if p.nframes ≤ f ∨ p.used f = false then p
  else if 1 < p.refcount f then { p with refcount := fun g => if g = f then p.refcount f - 1 else p.refcount g }
  else { p.markFree f with free := p.free + 1, refcount := fun g => if g = f then 0 else p.refcount g }

/-- `pmm_addref`: one more reference, saturating at 255. -/
def pmmAddref (p : Pmm) (f : Nat) : Pmm :=
  if f < p.nframes ∧ p.refcount f < 255 then
    { p with refcount := fun g => if g = f then p.refcount f + 1 else p.refcount g }
  else p

def pmmRefcount (p : Pmm) (f : Nat) : Nat := if f < p.nframes then p.refcount f else 0

structure Pmm.Held (p : Pmm) (f : Nat) : Prop where
  lt : f < p.nframes
  used : p.used f = true
  pos : 1 ≤ p.refcount f

/-! ## What each operation does -/

/-- **What `pmm_alloc_frame` does**: it takes the lowest clear frame, or every bit is set. -/
theorem pmmAllocFrame_cases (p : Pmm) : (∃ f < p.nframes, p.used f = false ∧ pmmAllocFrame p = (f, { p.markUsed f with
        free := p.free - 1, refcount := fun g => if g = f then 1 else p.refcount g, failed := p.failed || decide (f = 0) })) ∨
    ((∀ f < p.nframes, p.used f = true) ∧ pmmAllocFrame p = (0, { p with failed := true })) := by
  unfold pmmAllocFrame
  cases hf : (range p.nframes).find? (fun f => !p.used f) with
  | some f =>
    have hlt := mem_range.1 (mem_of_find?_eq_some hf)
    exact .inl ⟨f, hlt, by simpa using find?_some hf, rfl⟩
  | none =>
    refine .inr ⟨fun f hlt => ?_, rfl⟩
    simpa using find?_eq_none.1 hf f (mem_range.2 hlt)

/-- **An allocation that answers a frame** took a clear one, gave it one reference and changed nothing else. -/
theorem pmmAllocFrame_took (p : Pmm) (h0 : (pmmAllocFrame p).1 ≠ 0) : let r := pmmAllocFrame p
    r.2.failed = p.failed ∧ r.1 < p.nframes ∧ p.used r.1 = false ∧ r.2.Held r.1 ∧ r.2.refcount r.1 = 1 ∧
    r.2.nframes = p.nframes ∧ ∀ g, g ≠ r.1 → r.2.used g = p.used g ∧ r.2.refcount g = p.refcount g := by
  rcases pmmAllocFrame_cases p with ⟨f, hlt, hu, heq⟩ | ⟨-, heq⟩
  · rw [heq] at h0 ⊢
    refine ⟨?_, hlt, hu, ⟨hlt, ?_, ?_⟩, ?_, rfl, fun g hg => ⟨?_, ?_⟩⟩
    · simp only [decide_eq_false h0, Bool.or_false]
    · simp [Pmm.markUsed]
    · simp
    · simp
    · simp [Pmm.markUsed, hg]
    · simp [hg]
  · rw [heq] at h0
    exact absurd rfl h0

theorem pmmAllocFrame_nframes (p : Pmm) : (pmmAllocFrame p).2.nframes = p.nframes := by
  unfold pmmAllocFrame
  split <;> rfl

theorem pmmAllocFrame_failed {p : Pmm} (h : (pmmAllocFrame p).2.failed = false) : p.failed = false := by
  unfold pmmAllocFrame at h
  split at h
  · simp only [or_eq_false_iff] at h; exact h.1
  · cases h

/-- **An allocation that does not fail** returns a frame that was free, marks it, gives it one reference and changes
nothing else. -/
theorem pmmAllocFrame_spec (p : Pmm) (h : (pmmAllocFrame p).2.failed = false) : let r := pmmAllocFrame p
    r.1 ≠ 0 ∧ p.used r.1 = false ∧ r.2.Held r.1 ∧ r.2.refcount r.1 = 1 ∧ r.2.nframes = p.nframes ∧
    ∀ g, g ≠ r.1 → r.2.used g = p.used g ∧ r.2.refcount g = p.refcount g := by
  have h0 : (pmmAllocFrame p).1 ≠ 0 := by
    rcases pmmAllocFrame_cases p with ⟨f, -, -, heq⟩ | ⟨-, heq⟩
    · rw [heq] at h ⊢
      simp only [or_eq_false_iff, decide_eq_false_iff_not] at h
      exact h.2
    · rw [heq] at h
      cases h
  obtain ⟨-, -, hu, hheld, hrc, hn, hoth⟩ := pmmAllocFrame_took p h0
  exact ⟨h0, hu, hheld, hrc, hn, hoth⟩

theorem pmmAllocFrame_eq_zero (p : Pmm) (h : (pmmAllocFrame p).1 = 0) : (pmmAllocFrame p).2.failed = true := by
  cases hf : (pmmAllocFrame p).2.failed with
  | true => rfl
  | false => exact absurd h (pmmAllocFrame_spec p hf).1

theorem pmmAllocFrame_least (p : Pmm) (h : (pmmAllocFrame p).1 ≠ 0) :
    p.used (pmmAllocFrame p).1 = false ∧ ∀ g < (pmmAllocFrame p).1, p.used g = true := by
  unfold pmmAllocFrame at h ⊢
  cases hf : (range p.nframes).find? (fun f => !p.used f) with
  | none => rw [hf] at h; exact absurd rfl h
  | some f =>
    obtain ⟨hu, -, hall⟩ := find?_range_eq_some.1 hf
    exact ⟨by simpa using hu, fun g hg => by simpa using hall g hg⟩

theorem pmmAllocFrame_of_least (p : Pmm) {f : Nat} (hf : f < p.nframes) (hu : p.used f = false)
    (hlt : ∀ g < f, p.used g = true) : (pmmAllocFrame p).1 = f := by
  have : (range p.nframes).find? (fun f => !p.used f) = some f :=
    find?_range_eq_some.2 ⟨by simp [hu], mem_range.2 hf, fun g hg => by simp [hlt g hg]⟩
  unfold pmmAllocFrame
  rw [this]

theorem Pmm.Held.alloc {p : Pmm} {f : Nat} (h : p.Held f) (hok : (pmmAllocFrame p).2.failed = false) :
    (pmmAllocFrame p).2.Held f := by
  obtain ⟨-, hu, -, -, hn, hoth⟩ := pmmAllocFrame_spec p hok
  have hne : f ≠ (pmmAllocFrame p).1 := fun hx => by
    have := h.used
    rw [hx, hu] at this; cases this
  obtain ⟨h1, h2⟩ := hoth f hne
  exact ⟨by rw [hn]; exact h.lt, by rw [h1]; exact h.used, by rw [h2]; exact h.pos⟩

theorem pmmAddref_failed (p : Pmm) (f : Nat) : (pmmAddref p f).failed = p.failed := by
  unfold pmmAddref; split <;> rfl

theorem pmmAddref_used (p : Pmm) (f g : Nat) : (pmmAddref p f).used g = p.used g := by
  unfold pmmAddref; split <;> rfl

theorem pmmAddref_nframes (p : Pmm) (f : Nat) : (pmmAddref p f).nframes = p.nframes := by
  unfold pmmAddref; split <;> rfl

theorem pmmAddref_refcount {p : Pmm} {f g : Nat} (hf : f < p.nframes) :
    (pmmAddref p f).refcount g = if g = f ∧ p.refcount f < 255 then p.refcount f + 1 else p.refcount g := by
  unfold pmmAddref
  by_cases h : p.refcount f < 255
  · rw [if_pos ⟨hf, h⟩]
    by_cases hg : g = f
    · simp [hg, h]
    · simp [hg]
  · rw [if_neg (fun hc => h hc.2)]
    simp [h]

theorem pmmFreeFrame_nframes (p : Pmm) (f : Nat) : (pmmFreeFrame p f).nframes = p.nframes := by
  unfold pmmFreeFrame Pmm.markFree; split
  · rfl
  · split <;> rfl

theorem pmmFreeFrame_failed (p : Pmm) (f : Nat) : (pmmFreeFrame p f).failed = p.failed := by
  unfold pmmFreeFrame Pmm.markFree; split
  · rfl
  · split <;> rfl

/-- **Freeing a held frame** drops one reference, and the bit with the last one. -/
theorem pmmFreeFrame_spec (p : Pmm) (f : Nat) (h : p.Held f) (g : Nat) :
    (pmmFreeFrame p f).refcount g = (if g = f then p.refcount f - 1 else p.refcount g) ∧
    (pmmFreeFrame p f).used g = (if g = f then decide (1 < p.refcount f) else p.used g) := by
  have h1 : ¬ (p.nframes ≤ f ∨ p.used f = false) := by
    rintro (hc | hc)
    · have := h.lt; omega
    · rw [h.used] at hc; cases hc
  unfold pmmFreeFrame
  rw [if_neg h1]
  by_cases hr : 1 < p.refcount f
  · rw [if_pos hr]
    by_cases hg : g = f
    · subst hg; simp [hr, h.used]
    · simp [hg]
  rw [if_neg hr]
  have := h.pos
  by_cases hg : g = f
  · subst hg; simp [Pmm.markFree, hr]; omega
  · simp [Pmm.markFree, hg]

end Noxis
