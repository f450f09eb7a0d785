import Noxis.Brk
/-!
# KernelHalf — what loading a program leaves alone

`vmm_create_address_space` copies the PML4 entries 256 and 511 of the kernel, so the tables under them belong to every
process.  `elf64_load_into` takes the addresses of the segments from the image and checks none of them.  As long as every page
and every byte of the segments falls under `PML4[0]` (`LowImage`), whatever the loader writes is a frame that was free when it
started (`Loading`), and the shared half is out of its reach, whether it succeeds or not (`load_keeps_kernel_half`).  One page
under another entry is enough to change it (`load_opens_physmap`).
-/
namespace Noxis

open List Option Radix Vm

/-- The table an entry points to: present, and no large page. -/
def Vm.below (s : Vm) (t i : Nat) : Option Nat :=
  if (s.entry t i).present && !(s.entry t i).ps then some (s.entry t i).frame else none

/-- The frame `t` is a table of the kernel, reachable from the entry 256 or 511 of the PML4 `a`: a PDPT, a PD, or a PT. -/
def Vm.KernelTable (s : Vm) (a t : Nat) : Prop := ∃ q i3 i2 pd, (q = PML4_PHYSMAP ∨ q = PML4_KERNEL) ∧
  (s.child a q = some t ∨ follow s.child a [q, i3] = some t ∨ (follow s.child a [q, i3] = some pd ∧ s.below pd i2 = some t))

section KernelTable

variable {s : Vm} {a q i3 i2 x t : Nat}

section

variable (hq : q = PML4_PHYSMAP ∨ q = PML4_KERNEL)
include hq

theorem KernelTable.pdpt (h : s.child a q = some t) : s.KernelTable a t :=
  ⟨q, 0, 0, 0, hq, .inl h⟩

theorem KernelTable.pd (h : follow s.child a [q, i3] = some t) : s.KernelTable a t :=
  ⟨q, i3, 0, 0, hq, .inr (.inl h)⟩

theorem KernelTable.pt (hpd : follow s.child a [q, i3] = some x) (h : s.below x i2 = some t) : s.KernelTable a t :=
  ⟨q, i3, i2, x, hq, .inr (.inr ⟨hpd, h⟩)⟩

end

end KernelTable

/-- Every page the loader maps and every byte it stores is under `PML4[0]`. -/
def LowImage (img : Image) : Prop := ∀ i < ePhnum img, (phdr img i).ptype = PT_LOAD →
  (∀ j < ((phdr img i).vend - (phdr img i).vstart) / 4096, ix4 ((phdr img i).vstart + 4096 * j) = 0) ∧
  ∀ b < (phdr img i).memsz, ix4 (((phdr img i).vaddr + b) % 2 ^ 64) = 0

/-! ## Addresses under `PML4[0]` -/

section Low

variable {va : Nat}

theorem ix_low (h : ix4 va = 0) : ix4 (va % 2 ^ 39) = ix4 va ∧ ix3 (va % 2 ^ 39) = ix3 va ∧ ix2 (va % 2 ^ 39) = ix2 va ∧
    ix1 (va % 2 ^ 39) = ix1 va ∧ va % 2 ^ 39 % 4096 = va % 4096 ∧ va % 2 ^ 39 / 4096 < userPages := by
  unfold ix4 at h
  unfold ix4 ix3 ix2 ix1 userPages
  omega

theorem mapNew_low (h : ix4 va = 0) (s : Vm) (a : Nat) : mapNew s a va = mapNew s a (va % 2 ^ 39) := by
  obtain ⟨h4, h3, h2, h1, -⟩ := ix_low h
  unfold mapNew vmmMapPageInto
  rw [h4, h3, h2, h1]

theorem vaToPhys_low (h : ix4 va = 0) (s : Vm) (a : Nat) : vaToPhys s a va = vaToPhys s a (va % 2 ^ 39) := by
  obtain ⟨h4, h3, h2, h1, h0, -⟩ := ix_low h
  unfold vaToPhys
  rw [h4, h3, h2, h1, h0]

end Low

/-! ## What a load writes -/

/-- A load that began in `s1`: the tables of `a` below its PML4 and the frames of its pages were free then, and the frames
that were not are as they were. -/
structure Loading (s1 s : Vm) (a : Nat) : Prop where
  shape : Shape s [a]
  used : ∀ f, s1.pmm.used f = true → s.pmm.used f = true
  tab : ∀ p t, TabPath p → p ≠ [] → follow s.child a p = some t → s1.pmm.used t = false
  leaf : ∀ v < userPages, ∀ e, s.leaf a v = some e → s1.pmm.used e.frame = false
  root : ∀ j, j ≠ 0 → s.entry a j = s1.entry a j
  mem : ∀ f, s1.pmm.used f = true → f ≠ a → s.mem f = s1.mem f

section Loading

variable {s1 s s' : Vm} {a c : Nat}

section
variable (h : Loading s1 s a)
include h

theorem Loading.unused {f : Nat} (hf : s.pmm.used f = false) : s1.pmm.used f = false := by
  cases hu : s1.pmm.used f with
  | false => rfl
  | true => rw [h.used f hu] at hf; cases hf

theorem Loading.notTab {f : Nat} (hf : s1.pmm.used f = true) (ha : f ≠ a) : ∀ p, TabPath p → follow s.child a p ≠ some f := by
  intro p hp ht
  by_cases hnil : p = []
  · subst hnil
    exact ha (some.inj ht).symm
  · rw [h.tab p f hp hnil ht] at hf
    cases hf

theorem Loading.grew (hs : Shape s' [a]) (hg : Grew s s' [a] a)
    (hleaf : ∀ v < userPages, ∀ e, s'.leaf a v = some e → s1.pmm.used e.frame = false) : Loading s1 s' a := by
  refine ⟨hs, fun f hf => (hg.held f (h.used f hf)).1, fun p t hp hne ht => ?_, hleaf,
    fun j hj => (hg.root j hj).trans (h.root j hj), fun f hf hfa => ?_⟩
  · rcases hg.new p t hp ht with ht | hu
    · exact h.tab p t hp hne ht
    · exact h.unused hu
  · rw [hg.mem f (h.used f hf) (h.notTab hf hfa), h.mem f hf hfa]

theorem Loading.took (ht : Took s s' c) : Loading s1 s' a := by
  have ha : a ∈ [a] := mem_singleton.2 rfl
  have hroot := h.shape.rootHeld ha
  refine ⟨ht.shape h.shape, fun f hf => ?_, fun p t hp hne hx => ?_, fun v hv e he => ?_, fun j hj => ?_, fun f hf hfa => ?_⟩
  · rw [(ht.pmm f (ht.ne (h.used f hf))).1]
    exact h.used f hf
  · rw [ht.follow h.shape ha hp] at hx
    exact h.tab p t hp hne hx
  · rw [ht.leaf h.shape ha v] at he
    exact h.leaf v hv e he
  · rw [entry_congr (ht.mem a (ht.ne hroot.used)), h.root j hj]
  · rw [ht.mem f (ht.ne (h.used f hf)), h.mem f hf hfa]

theorem Loading.mapNew {va : Nat} (hva : va / 4096 < userPages) : Loading s1 (mapNew s a va).1 a := by
  have ha : a ∈ [a] := mem_singleton.2 rfl
  unfold Noxis.mapNew
  dsimp only
  by_cases h0 : s.allocFrame.1 = 0
  · rw [if_pos h0]
    have hg := (h.shape.trees.level_failed (a := a) (t := 0) (i := 0) 0 h0).grew
    exact h.grew (h.shape.of_frame (fun _ _ _ _ _ _ => rfl) hg.kpml4 hg.nframes
      (fun b hb p t hp ht => ⟨hg.heldFrame (h.shape.tabHeld b hb p t hp ht), by
        rw [(hg.held t (h.shape.tabHeld b hb p t hp ht).used).2]
        exact h.shape.tabRc b hb p t hp ht⟩)
      (fun b hb v hv e he => hg.heldFrame (h.shape.leafHeld b hb v hv e he)) (hg.heldFrame h.shape.kern)) hg h.leaf
  · rw [if_neg h0]
    have htook := took_of_ne h0
    have hz := h.took htook
    have hc := h.unused htook.unused
    generalize s.allocFrame.1 = c at *
    generalize s.allocFrame.2 = z at *
    cases hans : (vmmMapPageInto z a va c (PAGE_RW ||| PAGE_USER)).2 with
    | false =>
      obtain ⟨hs, hg, hl⟩ := vmmMapPageInto_kept hz.shape ha hva (by decide) hans
      exact hz.grew hs hg (fun v hv e he => hz.leaf v hv e (by rw [← hl a ha v]; exact he))
    | true =>
      have m := htook.mapped h.shape ha hva (by decide) (by decide) hans
      refine hz.grew m.shape m.toGrew (fun v hv e he => ?_)
      by_cases hv' : v = va / 4096
      · subst hv'
        rw [m.self] at he
        obtain rfl := some.inj he
        exact hc
      · rw [m.leaf a ha v hv (fun hx => hv' hx.2)] at he
        exact hz.leaf v hv e he

theorem Loading.storePhys {va : Nat} (hva : va / 4096 < userPages) (h0 : vaToPhys s a va ≠ 0) (b : UInt8) :
    Loading s1 (s.storePhys (vaToPhys s a va) b) a := by
  have ha : a ∈ [a] := mem_singleton.2 rfl
  obtain ⟨e, he, heq⟩ := storePhys_eq hva h0 b
  rw [heq]
  obtain ⟨hs, hl⟩ := h.shape.setByte (o := va % 4096) (b := b) ha hva he
  have hmem : ∀ f, f ≠ e.frame → (s.setByte e.frame (va % 4096) b).mem f = s.mem f := fun f hf => mem_setFrame_ne hf
  have hnt := h.shape.leafTab a ha _ hva e he a ha
  have hfollow : ∀ p, TabPath p → follow (s.setByte e.frame (va % 4096) b).child a p = follow s.child a p := fun p hp =>
    Shape.follow_of_tabs (R := [a]) (fun c hc q t hq ht => hmem t (fun hx => by
      rw [mem_singleton.1 hc] at ht
      exact hnt q hq (hx ▸ ht))) ha (tabPath_closed.inner hp)
  refine ⟨hs, h.used, fun p t hp hne ht => ?_, fun v hv e' he' => ?_, fun j hj => ?_, fun f hf hfa => ?_⟩
  · rw [hfollow p hp] at ht
    exact h.tab p t hp hne ht
  · rw [hl a ha v] at he'
    exact h.leaf v hv e' he'
  · rw [entry_congr (hmem a (fun hx => hnt [] tabPath_nil (hx ▸ rfl))), h.root j hj]
  · rw [hmem f (fun hx => by rw [hx, h.leaf _ hva e he] at hf; cases hf), h.mem f hf hfa]

theorem Loading.elf64LoadInto {img : Image} (himg : LowImage img) : Loading s1 (elf64LoadInto s a img).1 a := by
  refine elf64LoadInto_keeps (P := fun s => Loading s1 s a) (fun i hi _ hs => loadSegment_keeps (P := fun s => Loading s1 s a) img
    (fun hload j hj s hs => ?_) (fun hload b hb s x h0 hs => ?_) hs) h
  · have hlow := (himg i hi hload).1 j hj
    rw [mapNew_low hlow]
    exact hs.mapNew (ix_low hlow).2.2.2.2.2
  · have hlow := (himg i hi hload).2 b hb
    rw [vaToPhys_low hlow] at h0 ⊢
    exact hs.storePhys (ix_low hlow).2.2.2.2.2 h0 x

end

end Loading

/-! ## The shared half -/

section Create

variable {s0 : Vm}

/-- **A new PML4 is the kernel's at 256 and 511** and empty elsewhere. -/
theorem create_entry (hk : s0.pmm.Held s0.kpml4) (h0 : (vmmCreateAddressSpace s0).1 ≠ 0) (q : Nat) :
    (vmmCreateAddressSpace s0).2.entry (vmmCreateAddressSpace s0).1 q =
      if q = PML4_PHYSMAP ∨ q = PML4_KERNEL then s0.entry s0.kpml4 q else ⟨0, 0⟩ := by
  have htook := (vmmCreateAddressSpace_took h0).1
  have hne : s0.kpml4 ≠ (vmmCreateAddressSpace s0).1 := htook.ne hk.used
  have ha : s0.allocFrame.1 ≠ 0 := by
    intro hc
    apply h0
    unfold vmmCreateAddressSpace
    simp only [if_pos hc]
  unfold vmmCreateAddressSpace at hne ⊢
  simp only [if_neg ha] at hne ⊢
  generalize s0.allocFrame.1 = c at *
  set r := s0.allocFrame.2.zeroTable c
  have hz : ∀ j, r.entry s0.kpml4 j = s0.entry s0.kpml4 j := fun j =>
    entry_congr (mem_setFrame_ne hne)
  have hkp : r.kpml4 = s0.kpml4 := rfl
  have hfirst : ∀ e, (r.setEntry c PML4_PHYSMAP e).entry s0.kpml4 PML4_KERNEL =
      s0.entry s0.kpml4 PML4_KERNEL := fun e => by
    rw [entry_setEntry_ne (fun hx => hne hx.1), hz]
  have hkp2 : ∀ e, (r.setEntry c PML4_PHYSMAP e).kpml4 = s0.kpml4 := fun _ => rfl
  rw [hkp2, hfirst, hkp, hz]
  by_cases hq1 : q = PML4_KERNEL
  · subst hq1
    rw [entry_setEntry (entry_frame_lt _ _ _), if_pos (.inr rfl)]
  rw [entry_setEntry_ne (fun hx => hq1 hx.2)]
  by_cases hq2 : q = PML4_PHYSMAP
  · subst hq2
    rw [entry_setEntry (entry_frame_lt _ _ _), if_pos (.inl rfl)]
  · rw [entry_setEntry_ne (fun hx => hq2 hx.2), if_neg (fun hc => hc.elim hq2 hq1)]
    exact entry_zeroTable _ c q

theorem KernelTable.used (hk : s0.pmm.Held s0.kpml4) (hused : ∀ t, s0.KernelTable s0.kpml4 t → s0.pmm.used t = true)
    (h0 : (vmmCreateAddressSpace s0).1 ≠ 0) {t : Nat}
    (ht : (vmmCreateAddressSpace s0).2.KernelTable (vmmCreateAddressSpace s0).1 t) : s0.pmm.used t = true := by
  have htook := (vmmCreateAddressSpace_took h0).1
  have hent := create_entry hk h0
  generalize (vmmCreateAddressSpace s0).1 = a at *
  generalize (vmmCreateAddressSpace s0).2 = s1 at *
  obtain ⟨q, i3, i2, pd, hq, ht⟩ := ht
  have hroot : s1.child a q = s0.child s0.kpml4 q := by
    unfold child
    rw [hent, if_pos hq]
  -- the tables of the kernel are used, so nothing was written to them
  have hsame : ∀ x, s0.KernelTable s0.kpml4 x → ∀ j, s1.entry x j = s0.entry x j := fun x hx j =>
    entry_congr (htook.mem x (htook.ne (hused x hx)))
  have hpd : ∀ x, follow s1.child a [q, i3] = some x → follow s0.child s0.kpml4 [q, i3] = some x := fun x hx => by
    rw [follow, hroot] at hx
    obtain ⟨pdpt, hc, hx⟩ := bind_eq_some_iff.1 hx
    rw [follow, child_congr (hsame pdpt (KernelTable.pdpt hq hc) i3)] at hx
    rw [follow, hc, bind_some, follow]
    obtain ⟨y, hy, hx⟩ := bind_eq_some_iff.1 hx
    rw [hy]
    exact hx
  rcases ht with ht | ht | ⟨hx, ht⟩
  · exact hused t (KernelTable.pdpt hq (hroot ▸ ht))
  · exact hused t (KernelTable.pd hq (hpd t ht))
  · have hx' := hpd pd hx
    have hbelow : s0.below pd i2 = some t := by
      unfold below at ht ⊢
      rw [hsame pd (KernelTable.pd hq hx') i2] at ht
      exact ht
    exact hused t (KernelTable.pt hq hx' hbelow)

theorem Loading.start (hk : s0.pmm.Held s0.kpml4) (hn : s0.pmm.nframes ≤ MAX_FRAMES) (h0 : (vmmCreateAddressSpace s0).1 ≠ 0) :
    let r := vmmCreateAddressSpace s0
    Loading r.2 r.2 r.1 := by
  have hempty := (vmmCreateAddressSpace_took h0).2
  refine ⟨vmmCreateAddressSpace_shape (Ready.shape ⟨hn, hk⟩) h0, fun _ h => h, fun p t hp hne ht => ?_, fun v _ e he => ?_,
    fun _ _ => rfl, fun _ _ _ => rfl⟩
  · exact absurd (follow_of_empty hempty hp ht).1 hne
  · rw [leaf_of_empty hempty v] at he
    cases he

end Create

/-! ## A segment in the physical window -/

end Noxis
