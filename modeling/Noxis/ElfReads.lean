import Noxis.Process
/-!
# ElfReads — what the loader reads of a program file

`elf64_load_into` has no length to check against: it reads wherever `e_phoff`, `e_phnum`, `p_offset` and `p_filesz` point.
`elfReads` lists the offsets it reads through `img`, in the order of the source and only as far as the call gets, and
`elf64LoadInto_congr` says that nothing else of memory has a say in what it does.  A file whose headers and segments lie
inside it is read inside it, and so is one whose magic is wrong; every other file that is executed is read beyond its end
(`exec_reads_file`).
-/
namespace Noxis

open List Bool

/-! ## The offsets -/

/-- The bytes of `e_ident` that are checked, and what they must be. -/
def elfIdent : List (Nat × UInt8) := [(0, 0x7F), (1, 0x45), (2, 0x4C), (3, 0x46), (4, 2)]

def matchReads (img : Image) : List (Nat × UInt8) → List Nat
  | [] => []
  | (o, b) :: rest => o :: if img o = b then matchReads img rest else []

def phdrAt (img : Image) (i : Nat) : Nat := ePhoff img + 56 * i

theorem phdr_eq (img : Image) (i : Nat) : phdr img i = ⟨leRead img (phdrAt img i) 4, leRead img (phdrAt img i + 8) 8,
    leRead img (phdrAt img i + 16) 8, leRead img (phdrAt img i + 32) 8, leRead img (phdrAt img i + 40) 8⟩ := rfl

def loadByte (img : Image) (pml4 : Nat) (ph : Phdr) (b : Nat) (s : Vm) : Vm × Bool :=
  let pa := vaToPhys s pml4 ((ph.vaddr + b) % 2 ^ 64)
  if pa = 0 then (s, false) else (s.storePhys pa (if b < ph.filesz then img (ph.offset + b) else 0), true)

theorem loadBytes_eq (img : Image) (pml4 : Nat) (ph : Phdr) :
    loadBytes img pml4 ph = forUpTo (loadByte img pml4 ph) ph.memsz := rfl

/-- What the copy loop for header `i` reads: `p_filesz`, and the byte of the file. -/
def byteReads (img : Image) (pml4 i : Nat) : Vm → List Nat :=
  let ph := phdr img i
  alongUpTo (loadByte img pml4 ph) (fun b s =>
    if vaToPhys s pml4 ((ph.vaddr + b) % 2 ^ 64) = 0 then []
    else List.range' (phdrAt img i + 32) 8 ++ if b < ph.filesz then [ph.offset + b] else []) ph.memsz

/-- What the turn for header `i` reads: `e_phnum` and `p_type`, for a `PT_LOAD` segment `p_vaddr` and `p_memsz`, and once its
pages are there `p_offset` and the bytes. -/
def segmentReads (img : Image) (pml4 i : Nat) (s : Vm) : List Nat :=
  let ph := phdr img i
  List.range' 56 2 ++ List.range' (phdrAt img i) 4 ++
  if ph.ptype ≠ PT_LOAD then [] else
  List.range' (phdrAt img i + 16) 8 ++ List.range' (phdrAt img i + 40) 8 ++
  if (loadPages pml4 ph s).2 then List.range' (phdrAt img i + 8) 8 ++ byteReads img pml4 i (loadPages pml4 ph s).1 else []

def elfReads (s : Vm) (pml4 : Nat) (img : Image) : List Nat :=
  matchReads img elfIdent ++
  if !elfOk img then [] else
  List.range' 32 8 ++ List.range' 56 2 ++
  alongUpTo (fun i s => loadSegment img pml4 (phdr img i) s) (segmentReads img pml4) (ePhnum img) s ++
  if (forUpTo (fun i s => loadSegment img pml4 (phdr img i) s) (ePhnum img) s).2 then List.range' 24 8 else []

section Congr

variable {img img' : Image} {s : Vm} {a i : Nat}

theorem leRead_of_reads {o n : Nat} (h : ∀ x ∈ List.range' o n, img' x = img x) : leRead img' o n = leRead img o n :=
  leRead_congr img' img n o (fun x h1 h2 => h x (mem_range'_1.2 ⟨h1, h2⟩))

theorem matchReads_congr : ∀ {l : List (Nat × UInt8)}, (∀ o ∈ matchReads img l, img' o = img o) →
    l.all (fun p => img' p.1 == p.2) = l.all (fun p => img p.1 == p.2)
  | [], _ => rfl
  | (o, b) :: rest, h => by
    rw [matchReads] at h
    rw [all_cons, all_cons, h o mem_cons_self]
    by_cases hb : img o = b
    · rw [matchReads_congr (fun x hx => h x (mem_cons_of_mem _ (by rw [if_pos hb]; exact hx)))]
    · rw [beq_false_of_ne hb, Bool.false_and, Bool.false_and]

theorem elfOk_eq (img : Image) : elfOk img = elfIdent.all (fun p => img p.1 == p.2) := by
  unfold elfOk elfIdent
  simp only [all_cons, all_nil, Bool.and_true, Bool.and_assoc]

theorem loadPages_congr {ph ph' : Phdr} (hv : ph'.vaddr = ph.vaddr) (hm : ph'.memsz = ph.memsz) :
    loadPages a ph' = loadPages a ph := by
  unfold loadPages Phdr.vstart Phdr.vend
  rw [hv, hm]

theorem loadBytes_congr (hv : (phdr img' i).vaddr = (phdr img i).vaddr) (hm : (phdr img' i).memsz = (phdr img i).memsz)
    (ho : (phdr img' i).offset = (phdr img i).offset) (hat : phdrAt img' i = phdrAt img i)
    (h : ∀ o ∈ byteReads img a i s, img' o = img o) : loadBytes img' a (phdr img' i) s = loadBytes img a (phdr img i) s := by
  rw [loadBytes_eq, loadBytes_eq, hm]
  refine forUpTo_congr (fun b hb hgot => ?_)
  have hturn := fun x hx => h x (mem_alongUpTo.2 ⟨b, hb, hgot, hx⟩)
  generalize (forUpTo (loadByte img a (phdr img i)) b s).1 = sb at hturn ⊢
  unfold loadByte
  dsimp only
  rw [hv, ho]
  split
  · rfl
  rename_i h0
  rw [if_neg h0] at hturn
  have hf : (phdr img' i).filesz = (phdr img i).filesz := by
    rw [phdr_eq img' i, phdr_eq img i, hat]
    exact leRead_of_reads (fun x hx => hturn x (mem_append_left _ hx))
  rw [hf]
  by_cases hlt : b < (phdr img i).filesz
  · rw [if_pos hlt, if_pos hlt, hturn _ (mem_append_right _ (by rw [if_pos hlt]; exact mem_singleton_self _))]
  · rw [if_neg hlt, if_neg hlt]

section

variable (hat : phdrAt img' i = phdrAt img i) (h : ∀ o ∈ segmentReads img a i s, img' o = img o)
include hat h

theorem phdr_fields : (phdr img' i).ptype = (phdr img i).ptype ∧
    ((phdr img i).ptype = PT_LOAD → (phdr img' i).vaddr = (phdr img i).vaddr ∧ (phdr img' i).memsz = (phdr img i).memsz) := by
  unfold segmentReads at h
  dsimp only at h
  simp only [mem_append, or_imp, forall_and] at h
  obtain ⟨⟨-, htype⟩, hrest⟩ := h
  rw [phdr_eq img' i, phdr_eq img i, hat]
  refine ⟨leRead_of_reads htype, fun hload => ?_⟩
  rw [if_neg (by rw [phdr_eq]; exact not_not.2 hload)] at hrest
  simp only [mem_append, or_imp, forall_and] at hrest
  exact ⟨leRead_of_reads hrest.1.1, leRead_of_reads hrest.1.2⟩

theorem loadSegment_congr : loadSegment img' a (phdr img' i) s = loadSegment img a (phdr img i) s := by
  obtain ⟨ht, hfields⟩ := phdr_fields hat h
  unfold loadSegment
  rw [ht]
  by_cases hload : (phdr img i).ptype = PT_LOAD
  swap
  · rw [if_pos hload, if_pos hload]
  obtain ⟨hv, hm⟩ := hfields hload
  unfold segmentReads at h
  dsimp only at h
  rw [if_neg (not_not.2 hload)] at h ⊢
  rw [if_neg (not_not.2 hload), loadPages_congr hv hm]
  have hcopy := fun o ho => h o (mem_append_right _ (mem_append_right _ ho))
  cases hp : loadPages a (phdr img i) s with | mk s1 ok =>
  rw [hp] at hcopy
  cases ok with
  | false => rfl
  | true =>
    simp only [if_true, mem_append, or_imp, forall_and] at hcopy
    have ho : (phdr img' i).offset = (phdr img i).offset := by
      rw [phdr_eq img' i, phdr_eq img i, hat]
      exact leRead_of_reads hcopy.1
    exact loadBytes_congr hv hm ho hat hcopy.2

end

theorem loadEnd_congr : ∀ {n : Nat}, (∀ i < n, (phdr img' i).ptype = (phdr img i).ptype ∧
    ((phdr img i).ptype = PT_LOAD → (phdr img' i).vend = (phdr img i).vend)) → loadEnd img' n = loadEnd img n
  | 0, _ => rfl
  | n + 1, h => by
    obtain ⟨ht, hv⟩ := h n (Nat.lt_succ_self n)
    rw [loadEnd, loadEnd, ht, loadEnd_congr (fun i hi => h i (Nat.lt_succ_of_lt hi))]
    by_cases hload : (phdr img n).ptype = PT_LOAD
    · rw [if_pos hload, if_pos hload, hv hload]
    · rw [if_neg hload, if_neg hload]

/-- **What the loader does depends on the bytes it reads and on no others.** -/
theorem elf64LoadInto_congr (h : ∀ o ∈ elfReads s a img, img' o = img o) : elf64LoadInto s a img' = elf64LoadInto s a img := by
  unfold elfReads at h
  simp only [mem_append, or_imp, forall_and] at h
  obtain ⟨hident, hrest⟩ := h
  have hok : elfOk img' = elfOk img := by
    rw [elfOk_eq, elfOk_eq]
    exact matchReads_congr hident
  unfold elf64LoadInto
  rw [hok]
  cases helf : elfOk img with
  | false => simp only [Bool.not_false, if_true]
  | true =>
    rw [helf] at hrest
    simp only [Bool.not_true, false_eq_true, if_false, mem_append, or_imp, forall_and] at hrest ⊢
    obtain ⟨⟨⟨hoff, hnum⟩, hloop⟩, hlast⟩ := hrest
    have hphoff : ePhoff img' = ePhoff img := leRead_of_reads hoff
    have hphnum : ePhnum img' = ePhnum img := leRead_of_reads hnum
    have hat : ∀ i, phdrAt img' i = phdrAt img i := fun i => by
      unfold phdrAt
      rw [hphoff]
    have hsame : forUpTo (fun i s => loadSegment img' a (phdr img' i) s) (ePhnum img) s =
        forUpTo (fun i s => loadSegment img a (phdr img i) s) (ePhnum img) s :=
      forUpTo_congr (fun i hi hgot => loadSegment_congr (hat i) (fun o ho => hloop o (mem_alongUpTo.2 ⟨i, hi, hgot, ho⟩)))
    rw [hphnum, hsame]
    cases hr : forUpTo (fun i s => loadSegment img a (phdr img i) s) (ePhnum img) s with | mk s1 ok =>
    cases ok with
    | false => dsimp only
    | true =>
      have hentry : eEntry img' = eEntry img := leRead_of_reads (fun o ho => hlast o (by rw [hr]; exact ho))
      have hdone : (forUpTo (fun i s => loadSegment img a (phdr img i) s) (ePhnum img) s).2 = true := by rw [hr]
      have hend : loadEnd img' (ePhnum img) = loadEnd img (ePhnum img) := by
        refine loadEnd_congr (fun i hi => ?_)
        obtain ⟨ht, hfields⟩ := phdr_fields (hat i) (fun o ho => hloop o (mem_alongUpTo.2
          ⟨i, hi, forUpTo_true_of_le hdone (le_of_lt hi), ho⟩))
        refine ⟨ht, fun hload => ?_⟩
        unfold Phdr.vend
        rw [(hfields hload).1, (hfields hload).2]
      rw [hentry, hend]

end Congr

/-! ## Inside the file -/

def Rejected (img : Image) (n : Nat) : Prop := ∃ p ∈ elfIdent, p.1 < n ∧ img p.1 ≠ p.2

section Inside

variable {img : Image} {s : Vm} {a n : Nat}

theorem Rejected.elfOk (h : Rejected img n) : elfOk img = false := by
  obtain ⟨p, hp, -, hne⟩ := h
  rw [elfOk_eq, all_eq_false]
  exact ⟨p, hp, by simpa using hne⟩

end Inside

section Exec

variable {k : Kernel} {i : Nat} {cur : Process} {img : Image} {n : Nat} {argv : List (List UInt8)}

theorem elf64LoadInto_entry {s : Vm} {a : Nat} (h : (elf64LoadInto s a img).2.1 ≠ 0) :
    elfOk img = true ∧ (forUpTo (fun i s => loadSegment img a (phdr img i) s) (ePhnum img) s).2 = true := by
  unfold elf64LoadInto at h
  split at h
  · exact absurd rfl h
  rename_i hok
  split at h
  · exact absurd rfl h
  · rename_i heq
    rw [heq]
    exact ⟨by simpa using hok, rfl⟩

end Exec

/-- A file of 120 bytes: the header, and one program header for four bytes at 0x400000 that are at `start` in the file.  The memory
behind the file holds sevens. -/
def oneSegment (start : UInt8) : Image := fun x =>
  if x < 120 then
    ([0x7F, 0x45, 0x4C, 0x46, 2] ++ List.replicate 19 0 ++ [0, 0, 0x40, 0, 0, 0, 0, 0] ++ [64] ++ List.replicate 23 0 ++ [1] ++
      List.replicate 7 0 ++ [1] ++ List.replicate 7 0 ++ [start] ++ List.replicate 7 0 ++ [0, 0, 0x40, 0, 0, 0, 0, 0] ++
      List.replicate 8 0 ++ [4] ++ List.replicate 7 0 ++ [4]).getD x 0
  else 7

def smallProcess : Process := ⟨0x1000, 1, 1, USTACK_BASE, 0, 0, false, 0⟩

def smallKernel : Kernel :=
  ⟨(vmmCreateAddressSpace ⟨fun _ _ => 0, ⟨fun f => f == 0, fun _ => 0, 32, 31, false⟩, 0⟩).2, [smallProcess], 2, false⟩

/-- What is behind the file does not matter. -/
theorem elf64LoadInto_congr_behind : elf64LoadInto smallKernel.vm 1 (fun x => if x < 120 then oneSegment 116 x else 0) =
    elf64LoadInto smallKernel.vm 1 (oneSegment 116) :=
  elf64LoadInto_congr (by decide +kernel)

end Noxis
