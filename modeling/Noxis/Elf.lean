import Noxis.Bytes
import Noxis.VmAccess
/-!
# Elf — the program loader (`proc/elf.c`)

`elf64LoadInto` maps a fresh frame at every page of every `PT_LOAD` segment and stores the segment's bytes through the
physical window.  An image is the function from offsets to bytes that `prog->data` points to; the loader checks the magic
and the class and nothing else, so `Under` says where the segments of an image must lie for the loader to stay in the user
half, and `Intact.elf64LoadInto` that it then keeps the address spaces and the reference counts in order.
-/
namespace Noxis

open Option Radix

def PT_LOAD : Nat := 1

abbrev Image := Nat → UInt8

structure Phdr where
  ptype : Nat
  offset : Nat
  vaddr : Nat
  filesz : Nat
  memsz : Nat

def eEntry (img : Image) : Nat := leRead img 24 8
def ePhoff (img : Image) : Nat := leRead img 32 8
def ePhnum (img : Image) : Nat := leRead img 56 2

def phdr (img : Image) (i : Nat) : Phdr :=
  let a := ePhoff img + 56 * i
  ⟨leRead img a 4, leRead img (a + 8) 8, leRead img (a + 16) 8, leRead img (a + 32) 8, leRead img (a + 40) 8⟩

def elfOk (img : Image) : Bool :=
  img 0 == 0x7F && img 1 == 0x45 && img 2 == 0x4C && img 3 == 0x46 && img 4 == 2

def Phdr.vstart (ph : Phdr) : Nat := ph.vaddr / 4096 * 4096

def Phdr.vend (ph : Phdr) : Nat := (ph.vaddr + ph.memsz + 0xFFF) % 2 ^ 64 / 4096 * 4096

/-- `va_to_phys`: present entries only, whatever their other flags; 0 when one is missing. -/
def vaToPhys (s : Vm) (pml4 va : Nat) : Nat :=
  let e4 := s.entry pml4 (ix4 va)
  if !e4.present then 0 else
  let e3 := s.entry e4.frame (ix3 va)
  if !e3.present then 0 else
  let e2 := s.entry e3.frame (ix2 va)
  if !e2.present then 0 else
  let e1 := s.entry e2.frame (ix1 va)
  if !e1.present then 0 else e1.frame * 4096 + va % 4096

def Vm.storePhys (s : Vm) (pa : Nat) (b : UInt8) : Vm := s.setByte (pa / 4096) (pa % 4096) b

/-- `pmm_alloc_frame`, then `vmm_map_page_into` with `PAGE_RW | PAGE_USER`; the frame, which keeps its bytes, or 0. -/
def mapNew (s : Vm) (pml4 va : Nat) : Vm × Nat :=
  let r := s.allocFrame
  if r.1 = 0 then (r.2, 0) else ((vmmMapPageInto r.2 pml4 va r.1 (PAGE_RW ||| PAGE_USER)).1, r.1)

def loadPages (pml4 : Nat) (ph : Phdr) : Vm → Vm × Bool :=
  forUpTo (fun i s =>
    let r := mapNew s pml4 (ph.vstart + 4096 * i)
    (r.1, decide (r.2 ≠ 0))) ((ph.vend - ph.vstart) / 4096)

def loadBytes (img : Image) (pml4 : Nat) (ph : Phdr) : Vm → Vm × Bool :=
  forUpTo (fun b s =>
    let pa := vaToPhys s pml4 ((ph.vaddr + b) % 2 ^ 64)
    if pa = 0 then (s, false) else (s.storePhys pa (if b < ph.filesz then img (ph.offset + b) else 0), true)) ph.memsz

def loadSegment (img : Image) (pml4 : Nat) (ph : Phdr) (s : Vm) : Vm × Bool :=
  if ph.ptype ≠ PT_LOAD then (s, true) else
  match loadPages pml4 ph s with
  | (s, false) => (s, false)
  | (s, true) => loadBytes img pml4 ph s

def loadEnd (img : Image) : Nat → Nat
  | 0 => 0
  | i + 1 => if (phdr img i).ptype = PT_LOAD then max (loadEnd img i) (phdr img i).vend else loadEnd img i

/-- The entry point, or 0 on an error, and the initial break. -/
def elf64LoadInto (s : Vm) (pml4 : Nat) (img : Image) : Vm × Nat × Nat :=
  if !elfOk img then (s, 0, 0) else
  match forUpTo (fun i s => loadSegment img pml4 (phdr img i) s) (ePhnum img) s with
  | (s, false) => (s, 0, 0)
  | (s, true) => (s, eEntry img, loadEnd img (ePhnum img))

/-! ## Images that stay in the user half -/

/-- Every segment of the image ends under `PML4[0]`. -/
def Under (img : Image) : Prop := ∀ i < ePhnum img, (phdr img i).ptype = PT_LOAD → (phdr img i).vaddr + (phdr img i).memsz ≤ 2 ^ 39

/-! ## What loading keeps -/

section Load

variable {s : Vm} {R : List Nat} {a : Nat} {va i : Nat}

theorem vaToPhys_eq (s : Vm) (a : Nat) (hva : va / 4096 < userPages) : vaToPhys s a va = match s.leaf a (va / 4096) with
    | none => 0
    | some e => e.frame * 4096 + va % 4096 := by
  unfold vaToPhys Vm.leaf Vm.child
  rw [ptPath_va, ← ix4_eq va hva, ← (ix_eq va).2.2]
  simp only [follow]
  by_cases h4 : (s.entry a (ix4 va)).present = true
  swap
  · simp [h4]
  by_cases h3 : (s.entry (s.entry a (ix4 va)).frame (ix3 va)).present = true
  swap
  · simp [h4, h3]
  by_cases h2 : (s.entry (s.entry (s.entry a (ix4 va)).frame (ix3 va)).frame (ix2 va)).present = true
  swap
  · simp [h4, h3, h2]
  simp only [h4, h3, h2, Bool.not_true, Bool.false_eq_true, if_true, if_false, bind_some]
  generalize (s.entry (s.entry (s.entry a (ix4 va)).frame (ix3 va)).frame (ix2 va)).frame = pt
  by_cases h1 : (s.entry pt (ix1 va)).present = true
  · simp [h1]
  · simp [h1]

theorem storePhys_eq (hva : va / 4096 < userPages) (h0 : vaToPhys s a va ≠ 0) (b : UInt8) :
    ∃ e, s.leaf a (va / 4096) = some e ∧ s.storePhys (vaToPhys s a va) b = s.setByte e.frame (va % 4096) b := by
  rw [vaToPhys_eq s a hva] at h0 ⊢
  cases he : s.leaf a (va / 4096) with
  | none => rw [he] at h0; exact absurd rfl h0
  | some e =>
    refine ⟨e, rfl, ?_⟩
    simp only [Vm.storePhys]
    rw [show (e.frame * 4096 + va % 4096) / 4096 = e.frame by omega, show (e.frame * 4096 + va % 4096) % 4096 = va % 4096 by omega]

section

variable (h : Sound s R) (ha : a ∈ R) (hva : va / 4096 < userPages) (h0 : vaToPhys s a va ≠ 0) (b : UInt8)
include h ha hva h0 b

theorem Sound.storePhys : Sound (s.storePhys (vaToPhys s a va) b) R := by
  obtain ⟨e, he, heq⟩ := storePhys_eq hva h0 b
  rw [heq]
  exact h.setByte ha hva he

theorem Sound.storePhys_leaf : ∀ c ∈ R, ∀ w, (s.storePhys (vaToPhys s a va) b).leaf c w = s.leaf c w := by
  obtain ⟨e, he, heq⟩ := storePhys_eq hva h0 b
  rw [heq]
  exact (h.shape.setByte ha hva he).2

end

theorem mapNew_failed (h : (mapNew s a va).1.pmm.failed = false) : s.pmm.failed = false := by
  apply pmmAllocFrame_failed (p := s.pmm)
  unfold mapNew at h
  simp only at h
  split at h
  · exact h
  · exact vmmMapPageInto_failed s.allocFrame.2 _ _ _ _ h

/-- **A new page**, on a frame of its own. -/
theorem mapNew_sound (h : Sound s R) (ha : a ∈ R) (hva : va / 4096 < userPages)
    (hok : (mapNew s a va).1.pmm.failed = false) :
    let r := mapNew s a va
    r.2 ≠ 0 ∧ Took s s.allocFrame.2 r.2 ∧ r.1 = (vmmMapPageInto s.allocFrame.2 a va r.2 (PAGE_RW ||| PAGE_USER)).1 ∧
    ∃ p, Shows s r.1 R a (va / 4096) ⟨r.2, PAGE_RW ||| PAGE_USER ||| PAGE_PRESENT⟩ p := by
  have halloc : s.allocFrame.2.pmm.failed = false := by
    unfold mapNew at hok
    simp only at hok
    split at hok
    · exact hok
    · exact vmmMapPageInto_failed _ _ _ _ _ hok
  obtain ⟨h0, htook⟩ := took_alloc halloc
  unfold mapNew at hok ⊢
  simp only [if_neg h0] at hok ⊢
  exact ⟨h0, htook, trivial, _, map_fresh h.shape h.counted ha hva htook rfl hok⟩

theorem Intact.mapNew (h : Intact R s) (ha : a ∈ R) (hva : va / 4096 < userPages) : Intact R (mapNew s a va).1 := by
  cases hf : (Noxis.mapNew s a va).1.pmm.failed with
  | true => exact .inl hf
  | false =>
    obtain ⟨-, -, -, p, hs⟩ := mapNew_sound (h.sound (mapNew_failed hf)) ha hva hf
    exact .inr ⟨hs.shape, hs.counted⟩

theorem Intact.storePhys (h : Intact R s) (ha : a ∈ R) (hva : va / 4096 < userPages)
    (h0 : vaToPhys s a va ≠ 0) (b : UInt8) : Intact R (s.storePhys (vaToPhys s a va) b) :=
  h.imp id (fun h => h.storePhys ha hva h0 b)

variable {P : Vm → Prop}

/-- **What a page and a byte keep, a segment keeps.** -/
theorem loadSegment_keeps {ph : Phdr} (img : Image)
    (hmap : ph.ptype = PT_LOAD → ∀ j < (ph.vend - ph.vstart) / 4096, ∀ s, P s → P (mapNew s a (ph.vstart + 4096 * j)).1)
    (hstore : ph.ptype = PT_LOAD → ∀ b < ph.memsz, ∀ s x, vaToPhys s a ((ph.vaddr + b) % 2 ^ 64) ≠ 0 → P s →
      P (s.storePhys (vaToPhys s a ((ph.vaddr + b) % 2 ^ 64)) x)) (h : P s) : P (loadSegment img a ph s).1 := by
  unfold loadSegment
  by_cases hload : ph.ptype = PT_LOAD
  swap
  · rw [if_pos hload]; exact h
  have hpages : P (loadPages a ph s).1 := forUpTo_keeps _ P _ (fun j s hj hs => hmap hload j hj s hs) s h
  have hbytes : ∀ s, P s → P (loadBytes img a ph s).1 := by
    intro s hs
    refine forUpTo_keeps _ P _ (fun b s hb hs => ?_) s hs
    simp only
    split
    · exact hs
    · next h0 => exact hstore hload b hb s _ h0 hs
  rw [if_neg (fun hx => hx hload)]
  cases hr : loadPages a ph s with | mk s1 ok =>
  rw [hr] at hpages
  cases ok with
  | false => exact hpages
  | true => exact hbytes s1 hpages

variable {img : Image}

/-- **What every segment keeps, the loader keeps**, whether it succeeds or not. -/
theorem elf64LoadInto_keeps (hseg : ∀ i < ePhnum img, ∀ s, P s → P (loadSegment img a (phdr img i) s).1)
    (h : P s) : P (elf64LoadInto s a img).1 := by
  have hload : P (forUpTo (fun i s => loadSegment img a (phdr img i) s) (ePhnum img) s).1 :=
    forUpTo_keeps _ P _ (fun i s hi hs => hseg i hi s hs) s h
  unfold elf64LoadInto
  split
  · exact h
  cases hr : forUpTo (fun i s => loadSegment img a (phdr img i) s) (ePhnum img) s with | mk s1 ok =>
  rw [hr] at hload
  cases ok with
  | false => exact hload
  | true => exact hload

section

variable (hu : Under img) (hi : i < ePhnum img) (hload : (phdr img i).ptype = PT_LOAD)
include hu hi hload

theorem Under.page {j : Nat} (hj : j < ((phdr img i).vend - (phdr img i).vstart) / 4096) : ((phdr img i).vstart + 4096 * j) /
    4096 < userPages := by
  have hle := hu i hi hload
  unfold Phdr.vend Phdr.vstart at hj
  unfold Phdr.vstart userPages
  omega

theorem Under.byte {b : Nat} (hb : b < (phdr img i).memsz) : ((phdr img i).vaddr + b) % 2 ^ 64 / 4096 < userPages := by
  have hle := hu i hi hload
  unfold userPages
  omega

end

/-- **Loading an image that stays in the user half** keeps the address spaces and the reference counts in order. -/
theorem Intact.elf64LoadInto (h : Intact R s) (ha : a ∈ R) (hu : Under img) : Intact R (elf64LoadInto s a img).1 :=
  elf64LoadInto_keeps (fun _ hi _ hs => loadSegment_keeps img (fun hload _ hj _ hs => hs.mapNew ha (hu.page hi hload hj))
    (fun hload _ hb _ x h0 hs => hs.storePhys ha (hu.byte hi hload hb) h0 x) hs) h

theorem elf64LoadInto_failed (img : Image) (h : (elf64LoadInto s a img).1.pmm.failed = false) : s.pmm.failed = false := by
  cases hf : s.pmm.failed with
  | false => rfl
  | true =>
    have hkeep : (elf64LoadInto s a img).1.pmm.failed = true :=
      elf64LoadInto_keeps (P := fun s => s.pmm.failed = true) (fun _ _ _ hs => loadSegment_keeps (P := fun s => s.pmm.failed = true)
        img (fun _ j _ s hs => by
          cases hm : (mapNew s a ((phdr img _).vstart + 4096 * j)).1.pmm.failed with
          | true => rfl
          | false => rw [mapNew_failed hm] at hs; cases hs) (fun _ _ _ _ _ _ hs => hs) hs) hf
    rw [h] at hkeep
    cases hkeep

/-! ## What lies above the initial break -/

theorem vend_le_loadEnd (img : Image) : ∀ {n i : Nat}, i < n → (phdr img i).ptype = PT_LOAD → (phdr img i).vend ≤ loadEnd img n
  | n + 1, i, hi, hload => by
    rw [loadEnd]
    rcases Nat.lt_succ_iff_lt_or_eq.1 hi with hlt | rfl
    · have := vend_le_loadEnd img hlt hload
      split <;> omega
    · rw [if_pos hload]
      omega

theorem elf64LoadInto_brk (img : Image) (h : (elf64LoadInto s a img).2.1 ≠ 0) :
    (elf64LoadInto s a img).2.2 = loadEnd img (ePhnum img) := by
  unfold elf64LoadInto at h ⊢
  split
  next hbad => rw [if_pos hbad] at h; exact absurd rfl h
  next hgood =>
    rw [if_neg hgood] at h
    split
    next hr => rw [hr] at h; exact absurd rfl h
    next => rfl

def Vm.NoneFrom (s : Vm) (a top : Nat) : Prop := ∀ w < userPages, top ≤ w * 4096 → s.leaf a w = none

theorem Shows.none {s' : Vm} {v w : Nat} {e : Pte} {p : Nat → UInt8} (h : Shows s s' R a v e p) (ha : a ∈ R) (hw : w < userPages)
    (hne : w ≠ v) (hnone : s.leaf a w = none) : s'.leaf a w = none := by
  have hpage := h.page a ha w hw (fun hc => hne hc.2)
  unfold Vm.page at hpage
  rw [hnone] at hpage
  exact map_eq_none_iff.1 hpage

/-- **The loader maps nothing at or above the initial break.** -/
theorem elf64LoadInto_above (ha : a ∈ R) (hu : Under img)
    (h : Sound s R ∧ s.NoneFrom a (loadEnd img (ePhnum img))) (hok : (elf64LoadInto s a img).1.pmm.failed = false) :
    (elf64LoadInto s a img).1.NoneFrom a (loadEnd img (ePhnum img)) := by
  set r := elf64LoadInto s a img
  have hall : r.1.pmm.failed = true ∨
      (Sound r.1 R ∧ r.1.NoneFrom a (loadEnd img (ePhnum img))) := by
    refine elf64LoadInto_keeps (P := fun s => s.pmm.failed = true ∨ (Sound s R ∧ s.NoneFrom a (loadEnd img (ePhnum img))))
      (fun i hi _ hs => loadSegment_keeps (P := fun s => s.pmm.failed = true ∨ (Sound s R ∧ s.NoneFrom a (loadEnd img (ePhnum img))))
        img (fun hload j hj s hs => ?_) (fun hload b hb s x h0 hs => ?_) hs) (.inr h)
    · cases hf : (mapNew s a ((phdr img i).vstart + 4096 * j)).1.pmm.failed with
      | true => exact .inl rfl
      | false =>
        obtain ⟨hsound, hnone⟩ := hs.resolve_left (fun hc => by rw [mapNew_failed hf] at hc; cases hc)
        obtain ⟨-, -, -, p, hsh⟩ := mapNew_sound hsound ha (hu.page hi hload hj) hf
        refine .inr ⟨⟨hsh.shape, hsh.counted⟩, fun w hw htop => hsh.none ha hw (fun hwv => ?_) (hnone w hw htop)⟩
        -- the page is below the end of its segment
        have hend := vend_le_loadEnd img hi hload
        unfold Phdr.vend Phdr.vstart at hj
        unfold Phdr.vend at hend
        unfold Phdr.vstart at hwv
        omega
    · refine hs.imp id (fun hs => ⟨hs.1.storePhys ha (hu.byte hi hload hb) h0 x, fun w hw htop => ?_⟩)
      rw [(hs.1.storePhys_leaf ha (hu.byte hi hload hb) h0 x) a ha w]
      exact hs.2 w hw htop
  exact (hall.resolve_left (fun hc => by rw [hok] at hc; cases hc)).2

end Load

end Noxis
