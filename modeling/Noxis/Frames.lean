import Noxis.VmRoom
import Noxis.Run
/-!
# Frames — every history of the frame allocator

`Ledger` is the allocator beside what its users hold: `refs f` is the number of references to frame `f` that have been
given out and not freed.  The users follow two rules (`FrameOp.Ok`): they add to and free only references they hold, and no
frame gets more than 255.  Then the bitmap, the reference bytes and `g_free` all say what the ledger says
(`Ledger.Ok.step`), after `pmm_init` of any machine with at least 2 MB and any number of operations.
-/
namespace Noxis

open Function Finset

structure Ledger where
  pmm : Pmm
  refs : Nat → Nat

inductive FrameOp where
  | alloc
  | addref (f : Nat)
  | free (f : Nat)

def Ledger.step (l : Ledger) : FrameOp → Ledger × Nat
  | .alloc =>
    let r := pmmAllocFrame l.pmm
    (⟨r.2, if r.1 = 0 then l.refs else update l.refs r.1 1⟩, r.1)
  | .addref f => (⟨pmmAddref l.pmm f, update l.refs f (l.refs f + 1)⟩, 0)
  | .free f => (⟨pmmFreeFrame l.pmm f, update l.refs f (l.refs f - 1)⟩, 0)

/-- The caller holds the frame, and has room for one more reference in the byte that counts them. -/
def FrameOp.Ok (l : Ledger) : FrameOp → Prop
  | .alloc => True
  | .addref f => 0 < l.refs f ∧ l.refs f < 255
  | .free f => 0 < l.refs f

/-- The frames `pmm_init` sets aside: `[0, 2 MB)` and the kernel heap's `[16 MB, 48 MB)`. -/
def Reserved (f : Nat) : Prop :=
  f * PAGE_SIZE < RESERVED_END ∨ (16 * 1024 * 1024 ≤ f * PAGE_SIZE ∧ f * PAGE_SIZE < 48 * 1024 * 1024)

instance (f : Nat) : Decidable (Reserved f) := inferInstanceAs (Decidable (_ ∨ _))

theorem reserved_iff (f : Nat) : Reserved f ↔ f < 512 ∨ (4096 ≤ f ∧ f < 12288) := by
  unfold Reserved PAGE_SIZE RESERVED_END
  omega

/-! ## The invariant -/

structure Ledger.Ok (ramBytes : Nat) (l : Ledger) : Prop where
  nframes : l.pmm.nframes = min (ramBytes / PAGE_SIZE) MAX_FRAMES
  -- pmm_init takes the reserved frames off the count of all frames without a check
  enough : RESERVED_END / PAGE_SIZE ≤ l.pmm.nframes
  refcount : ∀ f, l.pmm.refcount f = l.refs f
  byte : ∀ f, l.refs f ≤ 255
  used : ∀ f < l.pmm.nframes, l.pmm.used f = (decide (Reserved f) || decide (0 < l.refs f))
  lent : ∀ f, 0 < l.refs f → f < l.pmm.nframes ∧ ¬ Reserved f
  free : l.pmm.free = freeFrames l.pmm

theorem sum_unreserved (n : Nat) : (∑ f ∈ range n, if Reserved f then 0 else 1) = n - 512 - (min 12288 n - 4096) := by
  induction n with
  | zero => rfl
  | succ n ih =>
    rw [sum_range_succ, ih]
    by_cases h : Reserved n
    · rw [if_pos h]
      rw [reserved_iff] at h
      omega
    · rw [if_neg h]
      rw [reserved_iff] at h
      omega

theorem pmmInit_ok {ramBytes : Nat} (hram : RESERVED_END ≤ ramBytes) : Ledger.Ok ramBytes ⟨pmmInit ramBytes, fun _ => 0⟩ := by
  set r := pmmInit ramBytes
  have hn : r.nframes = min (ramBytes / PAGE_SIZE) MAX_FRAMES := by
    show (if ramBytes / PAGE_SIZE > MAX_FRAMES then MAX_FRAMES else ramBytes / PAGE_SIZE) = _
    split <;> omega
  have hused : ∀ f < r.nframes, r.used f = decide (Reserved f) := by
    intro f hf
    show (decide (f < r.nframes) && (decide (f < 512) || (decide (4096 ≤ f) && decide (f < 12288)))) = _
    rw [decide_eq_true hf, Bool.true_and, ← Bool.decide_and, ← Bool.decide_or]
    exact decide_eq_decide.2 (reserved_iff f).symm
  have henough : RESERVED_END / PAGE_SIZE ≤ r.nframes := by
    rw [hn]
    exact le_min (Nat.div_le_div_right hram) (by decide)
  refine ⟨hn, henough, fun _ => rfl, fun _ => Nat.zero_le _, fun f hf => ?_, fun f hf => absurd hf (lt_irrefl 0), ?_⟩
  · rw [hused f hf, decide_eq_false (lt_irrefl 0), Bool.or_false]
  · show r.nframes - 512 - (min 12288 r.nframes - 4096) = _
    rw [← sum_unreserved]
    refine sum_congr rfl (fun f hf => ?_)
    rw [hused f (mem_range.1 hf)]
    simp only [decide_eq_true_eq]

section
variable {ramBytes f : Nat} {l : Ledger}

section

variable (h : l.Ok ramBytes)
include h

theorem Ledger.Ok.held (hf : 0 < l.refs f) : l.pmm.Held f := by
  obtain ⟨hlt, hres⟩ := h.lent f hf
  exact ⟨hlt, by rw [h.used f hlt, decide_eq_true hf, Bool.or_true], by rw [h.refcount]; exact hf⟩

/-- **An allocation** answers 0 exactly when no frame is free, and otherwise a frame nobody holds. -/
theorem Ledger.Ok.alloc :
    let r := l.step .alloc
    (r.2 = 0 ∧ l.pmm.free = 0 ∧ r.1.Ok ramBytes) ∨
    (r.2 ≠ 0 ∧ 0 < l.pmm.free ∧ r.2 < l.pmm.nframes ∧ ¬ Reserved r.2 ∧ l.refs r.2 = 0 ∧ r.1.Ok ramBytes) := by
  rcases pmmAllocFrame_cases l.pmm with ⟨f, hlt, hu, heq⟩ | ⟨hall, heq⟩
  · right
    have hstate := h.used f hlt
    rw [hu, eq_comm, Bool.or_eq_false_iff, decide_eq_false_iff_not, decide_eq_false_iff_not] at hstate
    obtain ⟨hres, href⟩ := hstate
    have h0 : f ≠ 0 := by
      rintro rfl
      exact hres ((reserved_iff 0).2 (by omega))
    have hstep : l.step .alloc = (⟨(pmmAllocFrame l.pmm).2, update l.refs f 1⟩, f) := by
      unfold Ledger.step
      rw [heq]
      simp only [if_neg h0]
    have hup := freeFrames_update l.pmm (pmmAllocFrame l.pmm).2 hlt (by rw [heq]; rfl) (fun g hg => by
      rw [heq]
      simp [Pmm.markUsed, hg])
    rw [hu, show (pmmAllocFrame l.pmm).2.used f = true by rw [heq]; simp [Pmm.markUsed]] at hup
    simp only [Bool.false_eq_true, if_true, if_false] at hup
    have hfree := h.free
    have hcount : (pmmAllocFrame l.pmm).2.free = freeFrames (pmmAllocFrame l.pmm).2 := by
      rw [show (pmmAllocFrame l.pmm).2.free = l.pmm.free - 1 by rw [heq]]
      omega
    rw [hstep, heq]
    dsimp only
    refine ⟨h0, by omega, hlt, hres, by omega, h.nframes, h.enough, fun g => ?_, fun g => ?_, fun g hg => ?_, fun g hg => ?_, ?_⟩
    · show (if g = f then 1 else l.pmm.refcount g) = update l.refs f 1 g
      rw [h.refcount, update_apply]
    · show update l.refs f 1 g ≤ 255
      rw [update_apply]
      split
      · decide
      · exact h.byte g
    · show (if g = f then true else l.pmm.used g) = (decide (Reserved g) || decide (0 < update l.refs f 1 g))
      by_cases hgf : g = f
      · subst hgf
        simp
      · rw [if_neg hgf, h.used g hg, update_of_ne hgf]
    · by_cases hgf : g = f
      · subst hgf
        exact ⟨hlt, hres⟩
      · have hg' : 0 < update l.refs f 1 g := hg
        rw [update_of_ne hgf] at hg'
        exact h.lent g hg'
    · rw [heq] at hcount
      exact hcount
  · left
    have hz := freeFrames_eq_zero.2 hall
    have hstep : l.step .alloc = (⟨{ l.pmm with failed := true }, l.refs⟩, 0) := by
      unfold Ledger.step
      rw [heq]
      simp only [if_true]
    rw [hstep]
    exact ⟨rfl, h.free.trans hz, h.nframes, h.enough, h.refcount, h.byte, h.used, h.lent, h.free⟩

/-- **A reference freed**: the frame can be allocated again exactly when it was the last one. -/
theorem Ledger.Ok.freeFrame (hf : 0 < l.refs f) : ((l.step (.free f)).1.pmm.used f = false ↔ l.refs f = 1) ∧
    (l.step (.free f)).1.Ok ramBytes := by
  have hheld := h.held hf
  obtain ⟨hlt, hres⟩ := h.lent f hf
  have hspec := pmmFreeFrame_spec l.pmm f hheld
  have hn := pmmFreeFrame_nframes l.pmm f
  have hup := freeFrames_update l.pmm (pmmFreeFrame l.pmm f) hlt hn (fun g hg => by rw [(hspec g).2, if_neg hg])
  rw [hheld.used, (hspec f).2, if_pos rfl, if_pos rfl, h.refcount] at hup
  have hfree : (pmmFreeFrame l.pmm f).free = l.pmm.free + if 1 < l.refs f then 0 else 1 := by
    unfold pmmFreeFrame
    rw [if_neg (by rw [hheld.used]; simp; omega), h.refcount]
    split <;> rfl
  refine ⟨?_, ⟨hn.trans h.nframes, by show _ ≤ (pmmFreeFrame l.pmm f).nframes; rw [hn]; exact h.enough, fun g => ?_,
    fun g => ?_, fun g hg => ?_, fun g hg => ?_, ?_⟩⟩
  · show (pmmFreeFrame l.pmm f).used f = false ↔ _
    rw [(hspec f).2, if_pos rfl, h.refcount, decide_eq_false_iff_not]
    omega
  · show (pmmFreeFrame l.pmm f).refcount g = update l.refs f (l.refs f - 1) g
    rw [(hspec g).1, h.refcount, h.refcount, update_apply]
  · show update l.refs f (l.refs f - 1) g ≤ 255
    have := h.byte f
    rw [update_apply]
    split
    · omega
    · exact h.byte g
  · show (pmmFreeFrame l.pmm f).used g = (decide (Reserved g) || decide (0 < update l.refs f (l.refs f - 1) g))
    rw [(hspec g).2, update_apply]
    by_cases hgf : g = f
    · subst hgf
      rw [if_pos rfl, if_pos rfl, decide_eq_false hres, Bool.false_or, h.refcount]
      exact decide_eq_decide.2 (by omega)
    · rw [if_neg hgf, if_neg hgf]
      exact h.used g (hn ▸ hg)
  · show g < (pmmFreeFrame l.pmm f).nframes ∧ _
    rw [hn]
    by_cases hgf : g = f
    · subst hgf
      exact ⟨hlt, hres⟩
    · rw [show (l.step (.free f)).1.refs g = l.refs g from update_of_ne hgf _ _] at hg
      exact h.lent g hg
  · show (pmmFreeFrame l.pmm f).free = freeFrames (pmmFreeFrame l.pmm f)
    simp only [decide_eq_true_eq] at hup
    rw [hfree, h.free]
    exact hup.symm

theorem Ledger.Ok.addref (hf : 0 < l.refs f) (hlim : l.refs f < 255) : (l.step (.addref f)).1.Ok ramBytes := by
  obtain ⟨hlt, hres⟩ := h.lent f hf
  have hn := pmmAddref_nframes l.pmm f
  have hu := pmmAddref_used l.pmm f
  refine ⟨hn.trans h.nframes, by show _ ≤ (pmmAddref l.pmm f).nframes; rw [hn]; exact h.enough, fun g => ?_, fun g => ?_,
    fun g hg => ?_, fun g hg => ?_, ?_⟩
  · show (pmmAddref l.pmm f).refcount g = update l.refs f (l.refs f + 1) g
    rw [pmmAddref_refcount hlt, update_apply, h.refcount, h.refcount]
    simp only [hlim, and_true]
  · show update l.refs f (l.refs f + 1) g ≤ 255
    rw [update_apply]
    split
    · omega
    · exact h.byte g
  · show (pmmAddref l.pmm f).used g = (decide (Reserved g) || decide (0 < update l.refs f (l.refs f + 1) g))
    rw [hu, h.used g (hn ▸ hg), update_apply]
    by_cases hgf : g = f
    · subst hgf
      rw [if_pos rfl, decide_eq_true hf, decide_eq_true (Nat.succ_pos _)]
    · rw [if_neg hgf]
  · show g < (pmmAddref l.pmm f).nframes ∧ _
    rw [hn]
    by_cases hgf : g = f
    · subst hgf
      exact ⟨hlt, hres⟩
    · rw [show (l.step (.addref f)).1.refs g = l.refs g from update_of_ne hgf _ _] at hg
      exact h.lent g hg
  · show (pmmAddref l.pmm f).free = freeFrames (pmmAddref l.pmm f)
    have hfree : (pmmAddref l.pmm f).free = l.pmm.free := by unfold pmmAddref; split <;> rfl
    rw [hfree, h.free]
    unfold freeFrames
    rw [hn]
    exact sum_congr rfl fun g _ => by rw [hu]

theorem Ledger.Ok.step (op : FrameOp) (hop : op.Ok l) : (l.step op).1.Ok ramBytes := by
  cases op with
  | alloc =>
    rcases h.alloc with ⟨-, -, hok⟩ | ⟨-, -, -, -, -, hok⟩
    · exact hok
    · exact hok
  | addref f => exact h.addref hop.1 hop.2
  | free f => exact (h.freeFrame hop).2

end

end

/-! ## Every history -/

/-- **The frame allocator.**  After `pmm_init` of a machine with at least 2 MB and any operations on frames that are held,
`g_free` is the number of clear bits, a frame outside the reserved regions is clear exactly when nobody holds it,
`pmm_alloc_frame` answers 0 exactly when `g_free` is 0 and otherwise a whole frame of RAM that nobody holds, outside
`[0, 2 MB)` and `[16 MB, 48 MB)`, and freeing a reference makes the frame allocatable exactly when it was the last. -/
theorem frame_allocator {ramBytes : Nat} (hram : RESERVED_END ≤ ramBytes) (ops : List FrameOp)
    (hops : ∀ pre op post, ops = pre ++ op :: post → op.Ok (run Ledger.step ⟨pmmInit ramBytes, fun _ => 0⟩ pre).1) :
    let l := (run Ledger.step ⟨pmmInit ramBytes, fun _ => 0⟩ ops).1
    l.pmm.free = ((Finset.range l.pmm.nframes).filter (fun f => l.pmm.used f = false)).card ∧
    (∀ f, 0 < l.refs f → f < l.pmm.nframes ∧ l.pmm.used f = true ∧ l.pmm.refcount f = l.refs f) ∧
    (∀ f < l.pmm.nframes, l.pmm.used f = false ↔ ¬ Reserved f ∧ l.refs f = 0) ∧
    ((pmmAllocFrame l.pmm).1 = 0 ↔ l.pmm.free = 0) ∧
    ((pmmAllocFrame l.pmm).1 ≠ 0 → (pmmAllocFrame l.pmm).1 * PAGE_SIZE + PAGE_SIZE ≤ ramBytes ∧
      l.refs (pmmAllocFrame l.pmm).1 = 0 ∧ ¬ Reserved (pmmAllocFrame l.pmm).1) ∧
    ∀ f, 0 < l.refs f → ((pmmFreeFrame l.pmm f).used f = false ↔ l.refs f = 1) := by
  intro l
  have h : l.Ok ramBytes :=
    run_inv (P := Ledger.Ok ramBytes) (C := fun l op => op.Ok l) (fun l op hl hop => hl.step op hop) ops _ (pmmInit_ok hram) hops
  refine ⟨?_, fun f hf => ⟨(h.lent f hf).1, (h.held hf).used, h.refcount f⟩, fun f hf => ?_, ?_, fun h0 => ?_,
    fun f hf => (h.freeFrame hf).1⟩
  · rw [h.free, card_filter]
    exact sum_congr rfl fun f _ => by cases l.pmm.used f <;> rfl
  · rw [h.used f hf, Bool.or_eq_false_iff, decide_eq_false_iff_not, decide_eq_false_iff_not, Nat.pos_iff_ne_zero, not_not]
  · rcases h.alloc with ⟨h0, hz, -⟩ | ⟨h0, hz, -⟩
    · exact ⟨fun _ => hz, fun _ => h0⟩
    · exact ⟨fun hc => absurd hc h0, fun hc => by omega⟩
  · rcases h.alloc with ⟨hz, -⟩ | ⟨-, -, hlt, hres, href, -⟩
    · exact absurd hz h0
    · refine ⟨?_, href, hres⟩
      have hn := h.nframes
      have hlt' : (pmmAllocFrame l.pmm).1 < l.pmm.nframes := hlt
      unfold PAGE_SIZE at hn ⊢
      omega

/-- The history of one frame of a 4 MB machine that is shared once. -/
theorem frame_allocator_shared : let l := (run Ledger.step ⟨pmmInit (4 * 1024 * 1024), fun _ => 0⟩ [.alloc, .addref 512]).1
    l.refs 512 = 2 ∧ l.pmm.free = 511 ∧ ((pmmFreeFrame l.pmm 512).used 512 = false ↔ l.refs 512 = 1) := by
  have h := @frame_allocator (4 * 1024 * 1024) (by decide) [.alloc, .addref 512] (by
    intro pre op post hp
    match pre, hp with
    | [], hp => cases hp; trivial
    | [_], hp => cases hp; exact ⟨by decide +kernel, by decide +kernel⟩
    | _ :: _ :: [], hp => cases hp
    | _ :: _ :: _ :: _, hp => cases hp)
  have hrefs : (run Ledger.step ⟨pmmInit (4 * 1024 * 1024), fun _ => 0⟩ [.alloc, .addref 512]).1.refs 512 = 2 := by
    decide +kernel
  have hfree : (run Ledger.step ⟨pmmInit (4 * 1024 * 1024), fun _ => 0⟩ [.alloc, .addref 512]).1.pmm.free = 511 := by
    decide +kernel
  exact ⟨hrefs, hfree, h.2.2.2.2.2 512 (by rw [hrefs]; decide)⟩

end Noxis
