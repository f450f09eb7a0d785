import Noxis.Elf
/-!
# Built — address spaces built by `vmm_create_address_space` and `vmm_map_page_into`

`Built s R` says that the address spaces `R` of memory `s` have been made by `vmm_create_address_space` and grown by
`vmm_map_page_into` only, at any addresses under `PML4[0]`, to any physical pages and with any flags, successfully or not,
while the rest of the kernel did whatever leaves their tables alone (`Elsewhere`): it may allocate and free other frames and
write anything into them.  Their tables then share nothing, and a mapping is exact (`mapping_exact`).
-/
namespace Noxis

open Radix

structure Elsewhere (s s' : Vm) (R : List Nat) : Prop where
  nframes : s'.pmm.nframes = s.pmm.nframes
  mem : ∀ a ∈ R, ∀ p t, TabPath p → follow s.child a p = some t → s'.mem t = s.mem t
  used : ∀ a ∈ R, ∀ p t, TabPath p → follow s.child a p = some t → s'.pmm.used t = true

inductive Built : Vm → List Nat → Prop where
  | start {s : Vm} (hn : s.pmm.nframes ≤ MAX_FRAMES) : Built s []
  | create {s : Vm} {R : List Nat} (h : Built s R) (h0 : (vmmCreateAddressSpace s).1 ≠ 0) :
      Built (vmmCreateAddressSpace s).2 ((vmmCreateAddressSpace s).1 :: R)
  | full {s : Vm} {R : List Nat} (h : Built s R) (h0 : (vmmCreateAddressSpace s).1 = 0) : Built (vmmCreateAddressSpace s).2 R
  | map {s : Vm} {R : List Nat} (h : Built s R) {a va pa : Nat} (ha : a ∈ R) (hva : va < 2 ^ 39) (hpa : pa < 2 ^ 64) (fl : Flags) :
      Built (vmmMapPageInto s a va (pa / 4096) fl).1 R
  | other {s s' : Vm} {R : List Nat} (h : Built s R) (he : Elsewhere s s' R) : Built s' R

theorem Took.trees {s s' : Vm} {d : Nat} {R : List Nat} (h : Took s s' d) (ht : Trees s R) :
    Trees s' R ∧ ∀ a ∈ R, ∀ p, TabPath p → Radix.follow s'.child a p = Radix.follow s.child a p := by
  have hf : ∀ a ∈ R, ∀ p, TabPath p → Radix.follow s'.child a p = Radix.follow s.child a p := fun a ha p hp =>
    Shape.follow_of_tabs (fun b hb q t hq hx => h.mem t (h.ne (ht.used b hb q t hq hx))) ha (tabPath_closed.inner hp)
  exact ⟨ht.of_follow h.nframes hf (fun t hu => by rw [(h.pmm t (h.ne hu)).1]; exact hu), hf⟩

theorem Trees.create {s : Vm} {R : List Nat} (h : Trees s R) (h0 : (vmmCreateAddressSpace s).1 ≠ 0) :
    Trees (vmmCreateAddressSpace s).2 ((vmmCreateAddressSpace s).1 :: R) := by
  obtain ⟨htook, hempty⟩ := vmmCreateAddressSpace_took h0
  obtain ⟨ht, hf⟩ := htook.trees h
  refine ht.cons_empty htook.heldNew.used hempty (fun a ha p hp hx => ?_)
  rw [hf a ha p hp] at hx
  exact h.fresh htook.unused a ha p hp hx

/-- **The tables of grown address spaces share nothing.** -/
theorem Built.trees {s : Vm} {R : List Nat} (h : Built s R) : Trees s R := by
  induction h with
  | start hn => exact ⟨hn, fun r _ _ _ _ hr => (by cases hr), fun a ha => (by cases ha)⟩
  | create h h0 ih => exact ih.create h0
  | @full s R h h0 ih =>
    have ha : s.allocFrame.1 = 0 := by
      by_contra hc
      exact hc (by unfold vmmCreateAddressSpace at h0; simpa only [if_neg hc] using h0)
    have heq : vmmCreateAddressSpace s = (0, s.allocFrame.2) := by
      unfold vmmCreateAddressSpace
      simp only [if_pos ha]
    rw [heq]
    exact (ih.level_failed (a := 0) (t := 0) (i := 0) 0 ha).trees
  | @map s R h a va pa ha hva hpa fl ih =>
    exact (vmmMapPageInto_trees ih ha (by unfold userPages; omega) (by omega) fl).1
  | @other s s' R h he ih =>
    have hf : ∀ a ∈ R, ∀ p, TabPath p → follow s'.child a p = follow s.child a p := fun a ha p hp =>
      Shape.follow_of_tabs he.mem ha (tabPath_closed.inner hp)
    refine ⟨by rw [he.nframes]; exact ih.nframes, fun r r' p p' t hr hr' hp hp' h1 h2 => ?_, fun a ha p t hp ht => ?_⟩
    · rw [hf r hr p hp] at h1
      rw [hf r' hr' p' hp'] at h2
      exact ih.unshared r r' p p' t hr hr' hp hp' h1 h2
    · rw [hf a ha p hp] at ht
      exact he.used a ha p t hp ht

/-- **Page mapping is exact.**  When `vmm_map_page_into` returns 0, `va_to_phys` sends every address of the page to the same
byte of the physical page and every other user address to where it went before; when it returns -1 every user address goes
where it went before; and no other address space changes either way. -/
theorem mapping_exact {s : Vm} {R : List Nat} (h : Built s R) {a va pa : Nat} (ha : a ∈ R) (hva : va < 2 ^ 39)
    (hpa : pa < 2 ^ 64) (fl : Flags) : let r := vmmMapPageInto s a va (pa / 4096) fl
    (r.2 = true → (∀ x, x / 4096 = va / 4096 → vaToPhys r.1 a x = pa / 4096 * 4096 + x % 4096) ∧
      ∀ x < 2 ^ 39, x / 4096 ≠ va / 4096 → vaToPhys r.1 a x = vaToPhys s a x) ∧
    (r.2 = false → ∀ x < 2 ^ 39, vaToPhys r.1 a x = vaToPhys s a x) ∧
    ∀ b ∈ R, b ≠ a → ∀ x < 2 ^ 39, vaToPhys r.1 b x = vaToPhys s b x := by
  intro r
  have hpage : ∀ x, x < 2 ^ 39 → x / 4096 < userPages := fun x hx => by unfold userPages; omega
  obtain ⟨-, hself, hoth⟩ := vmmMapPageInto_trees h.trees ha (hpage va hva) (show pa / 4096 < 2 ^ 52 by omega) fl
  have hsame : ∀ b ∈ R, ∀ x < 2 ^ 39, (r.2 = true → ¬ (b = a ∧ x / 4096 = va / 4096)) →
      vaToPhys r.1 b x = vaToPhys s b x := by
    intro b hb x hx hout
    rw [vaToPhys_eq r.1 b (hpage x hx), vaToPhys_eq s b (hpage x hx), hoth b hb _ (hpage x hx) hout]
  refine ⟨fun hok => ⟨fun x hx => ?_, fun x hx hne => hsame a ha x hx (fun _ hc => hne hc.2)⟩,
    fun hfail x hx => hsame a ha x hx (fun hok => ?_), fun b hb hba x hx => hsame b hb x hx (fun _ hc => hba hc.1)⟩
  · rw [vaToPhys_eq r.1 a (by rw [hx]; exact hpage va hva), hx, hself hok]
  · rw [hfail] at hok
    cases hok

def bareVm : Vm := ⟨fun _ _ => 0, ⟨fun f => f == 0, fun _ => 0, 8, 7, false⟩, 0⟩

/-- Two address spaces, and a page mapped into the older one. -/
theorem mapping_exact_two : let s := (vmmCreateAddressSpace (vmmCreateAddressSpace bareVm).2).2
    let r := vmmMapPageInto s 1 0x40000123 (0x7654 / 4096) PAGE_USER
    r.2 = true ∧ vaToPhys r.1 1 0x40000FFF = 0x7FFF ∧ vaToPhys r.1 2 0x40000FFF = vaToPhys s 2 0x40000FFF := by
  set w := vmmCreateAddressSpace bareVm
  have h1 : Built w.2 [1] := .create (.start (by decide)) (by decide +kernel)
  have h2 : Built (vmmCreateAddressSpace w.2).2 [2, 1] := .create h1 (by decide +kernel)
  obtain ⟨hmapped, -, hother⟩ := mapping_exact h2 (show 1 ∈ [2, 1] by decide) (show 0x40000123 < 2 ^ 39 by decide)
    (show 0x7654 < 2 ^ 64 by decide) PAGE_USER
  have hok : (vmmMapPageInto (vmmCreateAddressSpace w.2).2 1 0x40000123 (0x7654 / 4096)
      PAGE_USER).2 = true := by decide +kernel
  exact ⟨hok, (hmapped hok).1 0x40000FFF (by decide), hother 2 (by decide) (by decide) 0x40000FFF (by decide)⟩

end Noxis
