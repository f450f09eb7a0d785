import Noxis.Fd
/-!
# PipeEnds — the end counts of pipes are exact

`refs s e i` counts the descriptors of processes that are not zombies which are end `e` of pipe `i`.  `Counts` says that
`readers` and `writers` are these numbers and that a pipe is unused exactly when both are 0.  Two moves keep it: giving up
one descriptor (`Counts.drop`) and copying one into a free place (`Counts.addref`).  Every system call is a sequence of
them.
-/
namespace Noxis

open Function Finset FdSys
namespace FdSys

/-- The descriptors of processes in `live` that are end `e` of pipe `i`. -/
def refs (live : Finset Nat) (fds : Nat × Nat → Fd) (e : PipeEnd) (i : Nat) : Nat :=
  ((live ×ˢ Finset.range procMaxFds).filter (fun q => (fds q).kind = .pipe e i)).card

/-- Pipe `p` has `c .r` readers and `c .w` writers, and is unused exactly when there are neither. -/
structure Exact (p : Pipe) (c : PipeEnd → Nat) : Prop where
  readers : p.readers = c .r
  writers : p.writers = c .w
  used : p.used = false ↔ c .r = 0 ∧ c .w = 0

def Counts (live : Finset Nat) (fds : Nat × Nat → Fd) (pipes : Nat → Pipe) : Prop :=
  ∀ i, Exact (pipes i) (fun e => refs live fds e i)

section
variable {p : Pipe} {c c' : PipeEnd → Nat}

theorem Exact.close (h : Exact p c) (e : PipeEnd) (he : c' e + 1 = c e) (ho : ∀ e', e' ≠ e → c' e' = c e') :
    Exact (p.close e) c' := by
  obtain ⟨hr, hw, hu⟩ := h
  cases e with
  | r =>
    have hother := ho .w (by decide)
    simp only [Pipe.close, if_pos (show 0 < p.readers by omega)]
    split
    · exact ⟨by dsimp only; omega, by dsimp only; omega, ⟨fun _ => by omega, fun _ => rfl⟩⟩
    · exact ⟨by dsimp only; omega, by dsimp only; omega, hu.trans (by omega)⟩
  | w =>
    have hother := ho .r (by decide)
    simp only [Pipe.close, if_pos (show 0 < p.writers by omega)]
    split
    · exact ⟨by dsimp only; omega, by dsimp only; omega, ⟨fun _ => by omega, fun _ => rfl⟩⟩
    · exact ⟨by dsimp only; omega, by dsimp only; omega, hu.trans (by omega)⟩

theorem Exact.addref (h : Exact p c) (e : PipeEnd) (hpos : 0 < c e) (he : c' e = c e + 1)
    (ho : ∀ e', e' ≠ e → c' e' = c e') : Exact (p.addref e) c' := by
  obtain ⟨hr, hw, hu⟩ := h
  cases e with
  | r =>
    have hother := ho .w (by decide)
    exact ⟨by dsimp only [Pipe.addref]; omega, by dsimp only [Pipe.addref]; omega, hu.trans (by omega)⟩
  | w =>
    have hother := ho .r (by decide)
    exact ⟨by dsimp only [Pipe.addref]; omega, by dsimp only [Pipe.addref]; omega, hu.trans (by omega)⟩

end

theorem card_filter_update {α β : Type} [DecidableEq α] (S : Finset α) (f : α → β) (P : β → Prop) [DecidablePred P] {a : α}
    (ha : a ∈ S) (x : β) : (S.filter (fun q => P (update f a x q))).card + (if P (f a) then 1 else 0)
      = (S.filter (fun q => P (f q))).card + (if P x then 1 else 0) := by
  have hrest : (S.erase a).filter (fun q => P (update f a x q)) = (S.erase a).filter (fun q => P (f q)) := by
    apply filter_congr
    intro q hq
    rw [update_of_ne (ne_of_mem_erase hq)]
  have hsplit : ∀ g : α → β, (S.filter (fun q => P (g q))).card
      = ((S.erase a).filter (fun q => P (g q))).card + (if P (g a) then 1 else 0) := by
    intro g
    have hnot : a ∉ (S.erase a).filter (fun q => P (g q)) := by simp
    rw [← insert_erase ha, filter_insert, erase_insert (notMem_erase a S)]
    by_cases hp : P (g a)
    · rw [if_pos hp, if_pos hp, card_insert_of_notMem hnot]
    · rw [if_neg hp, if_neg hp]
      rfl
  rw [hsplit, hsplit f, hrest, update_self]
  omega

section
variable {live : Finset Nat} {fds : Nat × Nat → Fd} {pipes : Nat → Pipe} {p fd : Nat}

theorem refs_update (fds : Nat × Nat → Fd) (hp : p ∈ live) (hfd : fd < procMaxFds) (x : Fd) (e : PipeEnd) (i : Nat) :
    refs live (update fds (p, fd) x) e i + (if (fds (p, fd)).kind = .pipe e i then 1 else 0)
      = refs live fds e i + (if x.kind = .pipe e i then 1 else 0) :=
  card_filter_update _ fds (fun y => y.kind = .pipe e i)
    (mem_product.2 ⟨hp, mem_range.2 hfd⟩) x

theorem refs_pos (hp : p ∈ live) (hfd : fd < procMaxFds) {e : PipeEnd} {i : Nat} (hk : (fds (p, fd)).kind = .pipe e i) :
    0 < refs live fds e i :=
  card_pos.2 ⟨(p, fd), mem_filter.2 ⟨mem_product.2 ⟨hp, mem_range.2 hfd⟩, hk⟩⟩

section

variable (h : Counts live fds pipes)
include h

theorem Counts.congr {fds' : Nat × Nat → Fd} {live' : Finset Nat} (hr : ∀ e i, refs live' fds' e i = refs live fds e i) :
    Counts live' fds' pipes := by
  intro i
  have he : (fun e => refs live' fds' e i) = fun e => refs live fds e i := by
    funext e
    exact hr e i
  rw [he]
  exact h i

/-- Only the counters of the end that `k` names move. -/
theorem Counts.change {fds' : Nat × Nat → Fd} {pipes' : Nat → Pipe} {k : FdKind} (hrefs : ∀ e i, k ≠ .pipe e i →
    refs live fds' e i = refs live fds e i) (hnone : (∀ e i, k ≠ .pipe e i) → pipes' = pipes) (hsome : ∀ e i, k = .pipe e i →
    (∀ j, j ≠ i → pipes' j = pipes j) ∧ ((∀ e', e' ≠ e → refs live fds' e' i = refs live fds e' i) → Exact (pipes' i)
    (fun e' => refs live fds' e' i))) : Counts live fds' pipes' := by
  by_cases hk : ∃ e i, k = .pipe e i
  · obtain ⟨e, i, hk⟩ := hk
    obtain ⟨hoth, hat⟩ := hsome e i hk
    have hne : ∀ e' j, ¬ (e' = e ∧ j = i) → refs live fds' e' j = refs live fds e' j := fun e' j hn =>
      hrefs e' j (fun hx => hn (by cases hk.symm.trans hx; exact ⟨rfl, rfl⟩))
    intro j
    by_cases hj : j = i
    · rw [hj]
      exact hat (fun e' he' => hne e' i (fun hc => he' hc.1))
    · have hc : (fun e' => refs live fds' e' j) = fun e' => refs live fds e' j := funext fun e' => hne e' j (fun hc => hj hc.2)
      rw [hoth j hj, hc]
      exact h j
  · rw [hnone (fun e i he => hk ⟨e, i, he⟩)]
    exact h.congr (fun e i => hrefs e i (fun he => hk ⟨e, i, he⟩))

/-- **Giving up a descriptor**: `pipe_close`, and anything but a pipe end in its place. -/
theorem Counts.drop (hp : p ∈ live) (hfd : fd < procMaxFds) {x : Fd} (hx : ∀ e i, x.kind ≠ .pipe e i) :
    Counts live (update fds (p, fd) x) (FdSys.drop pipes (fds (p, fd)).kind) := by
  have hup : ∀ e i, refs live (update fds (p, fd) x) e i + (if (fds (p, fd)).kind = .pipe e i then 1 else 0)
      = refs live fds e i := fun e i => by
    rw [refs_update fds hp hfd, if_neg (hx e i), add_zero]
  refine h.change (k := (fds (p, fd)).kind) (fun e i hne => ?_) (fun hk => ?_) (fun e i hk => ?_)
  · have := hup e i
    rwa [if_neg hne, add_zero] at this
  · generalize (fds (p, fd)).kind = k at hk
    cases k with
    | pipe e i => exact absurd rfl (hk e i)
    | _ => rfl
  · have := hup e i
    rw [if_pos hk] at this
    rw [hk, FdSys.drop]
    refine ⟨fun j hj => update_of_ne hj .., fun hoth => ?_⟩
    rw [update_self]
    exact (h i).close e this hoth

/-- **Copying a descriptor** `x` that some process holds into a place that is no pipe end, with `pipe_addref`. -/
theorem Counts.addref (hp : p ∈ live) (hfd : fd < procMaxFds) (hold : ∀ e i, (fds (p, fd)).kind ≠ .pipe e i) {x : Fd}
    (hx : ∀ e i, x.kind = .pipe e i → 0 < refs live fds e i) : Counts live (update fds (p, fd) x)
    (FdSys.addref pipes x.kind) := by
  have hup : ∀ e i, refs live (update fds (p, fd) x) e i
      = refs live fds e i + (if x.kind = .pipe e i then 1 else 0) := fun e i => by
    have hone := refs_update fds hp hfd x e i
    rwa [if_neg (hold e i), add_zero] at hone
  refine h.change (k := x.kind) (fun e i hne => ?_) (fun hk => ?_) (fun e i hk => ?_)
  · rw [hup, if_neg hne, add_zero]
  · generalize x.kind = k at hk
    cases k with
    | pipe e i => exact absurd rfl (hk e i)
    | _ => rfl
  · rw [hk, FdSys.addref]
    refine ⟨fun j hj => update_of_ne hj .., fun hoth => ?_⟩
    rw [update_self]
    exact (h i).addref e (hx e i hk) (by rw [hup, if_pos hk]) hoth

end

theorem closed_ne_pipe {k : FdKind} (h : k = .closed) (e : PipeEnd) (i : Nat) : k ≠ .pipe e i := by
  rw [h]
  exact fun hc => by cases hc

/-- **An unused pipe handed out**: one descriptor for each end. -/
theorem Counts.opened (h : Counts live fds pipes) (hp : p ∈ live) {rfd wfd i : Nat} (hr16 : rfd < procMaxFds)
    (hw16 : wfd < procMaxFds) (hne : rfd ≠ wfd) (hrc : (fds (p, rfd)).kind = .closed) (hwc : (fds (p, wfd)).kind = .closed)
    (hunused : (pipes i).used = false) : Counts live (update (update fds (p, rfd) ⟨.pipe .r i, 0⟩) (p, wfd) ⟨.pipe .w i, 0⟩)
      (update pipes i (pipes i).opened) := by
  have hzero := (h i).used.1 hunused
  have hone : ∀ e j, refs live (update fds (p, rfd) ⟨.pipe .r i, 0⟩) e j
      = refs live fds e j + (if FdKind.pipe .r i = .pipe e j then 1 else 0) := by
    intro e j
    have hu := refs_update fds hp hr16 ⟨.pipe .r i, 0⟩ e j
    rwa [if_neg (closed_ne_pipe hrc e j), add_zero] at hu
  have htwo : ∀ e j, refs live (update (update fds (p, rfd) ⟨.pipe .r i, 0⟩) (p, wfd) ⟨.pipe .w i, 0⟩) e j
      = refs live fds e j + (if FdKind.pipe .r i = .pipe e j then 1 else 0)
        + (if FdKind.pipe .w i = .pipe e j then 1 else 0) := by
    intro e j
    have hold : update fds (p, rfd) ⟨.pipe .r i, 0⟩ (p, wfd) = fds (p, wfd) :=
      update_of_ne (by simp [hne.symm]) _ _
    have hu := refs_update (update fds (p, rfd) ⟨.pipe .r i, 0⟩) hp hw16 ⟨.pipe .w i, 0⟩ e j
    rwa [hold, if_neg (closed_ne_pipe hwc e j), add_zero, hone] at hu
  intro j
  by_cases hj : j = i
  · subst hj
    rw [update_self]
    refine ⟨?_, ?_, ?_⟩
    · rw [htwo, hzero.1]
      simp [Pipe.opened]
    · rw [htwo, hzero.2]
      simp [Pipe.opened]
    · rw [htwo, htwo]
      simp [Pipe.opened]
  · rw [update_of_ne hj]
    have hc : (fun e => refs live (update (update fds (p, rfd) ⟨.pipe .r i, 0⟩) (p, wfd) ⟨.pipe .w i, 0⟩) e j)
        = fun e => refs live fds e j := by
      funext e
      have hpipe : ∀ e', FdKind.pipe e' i ≠ .pipe e j := fun e' he => hj (by cases he; rfl)
      rw [htwo, if_neg (hpipe .r), if_neg (hpipe .w)]
      rfl
    rw [hc]
    exact h j

end

/-! ## The system calls -/

structure Inv (s : FdSys) : Prop where
  counts : Counts s.live s.fds s.pipes
  names : ∀ p ∈ s.live, p < s.next

variable {s : FdSys} {p : Nat}

theorem fdGet_some {fd : Int} {k : Nat} (h : s.fdGet p fd = some k) :
    k < procMaxFds ∧ fd = k ∧ (s.fds (p, k)).kind ≠ .closed := by
  unfold fdGet at h
  split at h
  · cases h
  rename_i hr
  split at h
  · cases h
  · rename_i hk
    cases h
    exact ⟨by omega, by omega, hk⟩

theorem firstClosed_some {start k : Nat} (h : s.firstClosed p start = some k) :
    k < procMaxFds ∧ start ≤ k ∧ (s.fds (p, k)).kind = .closed := by
  have hmem := List.mem_of_find?_eq_some h
  have hp := List.find?_some h
  simp only [Bool.and_eq_true, decide_eq_true_eq] at hp
  exact ⟨List.mem_range.1 hmem, hp.1, hp.2⟩

section
variable {fd new : Nat}

section

variable (hfd : fd < procMaxFds) (ho : (s.fds (p, fd)).kind ≠ .closed)
include hfd ho

end

end

theorem sysPipe_cases (s : FdSys) (p : Nat) : s.sysPipe p = (s, none) ∨ ∃ rfd wfd i, rfd < wfd ∧ wfd < procMaxFds ∧
    (s.fds (p, rfd)).kind = .closed ∧ (s.fds (p, wfd)).kind = .closed ∧ (s.pipes i).used = false ∧ s.sysPipe p =
      (⟨s.live, s.next, update (update s.fds (p, rfd) ⟨.pipe .r i, 0⟩) (p, wfd) ⟨.pipe .w i, 0⟩,
        update s.pipes i (s.pipes i).opened⟩, some (rfd, wfd)) := by
  unfold sysPipe
  cases hr : s.firstClosed p 0 with
  | none => exact .inl rfl
  | some rfd =>
    dsimp only
    cases hw : s.firstClosed p (rfd + 1) with
    | none => exact .inl rfl
    | some wfd =>
      dsimp only
      cases hi : (List.range npipes).find? (fun i => !(s.pipes i).used) with
      | none => exact .inl rfl
      | some i =>
        obtain ⟨-, -, hrc⟩ := firstClosed_some hr
        obtain ⟨hw16, hlt, hwc⟩ := firstClosed_some hw
        exact .inr ⟨rfd, wfd, i, hlt, hw16, hrc, hwc, by simpa using List.find?_some hi, rfl⟩

section

variable (h : s.Inv) (hp : p ∈ s.live)
include h hp

theorem Inv.sysPipe : (s.sysPipe p).1.Inv := by
  rcases sysPipe_cases s p with heq | ⟨rfd, wfd, i, hlt, hw16, hrc, hwc, hunused, heq⟩
  · rw [heq]
    exact h
  · rw [heq]
    exact ⟨h.counts.opened hp (by omega) hw16 (by omega) hrc hwc hunused, h.names⟩

theorem Inv.setClosed {fd : Nat} (hfd : fd < procMaxFds) (hc : (s.fds (p, fd)).kind = .closed) {x : Fd}
    (hx : ∀ e i, x.kind ≠ .pipe e i) : (s.setFd p fd x).Inv := by
  refine ⟨?_, h.names⟩
  have hd := h.counts.drop hp hfd hx
  rw [hc] at hd
  exact hd

theorem Inv.sysOpen (o : Option Found) : (s.sysOpen p o).1.Inv := by
  unfold FdSys.sysOpen
  cases o with
  | none => exact h
  | some f =>
    simp only
    cases hf : s.firstClosed p 3 with
    | none => exact h
    | some fd =>
      obtain ⟨h16, -, hc⟩ := firstClosed_some hf
      refine h.setClosed hp h16 hc (fun e i => ?_)
      cases f <;> exact fun he => by cases he

theorem Inv.sysClose (fd : Int) : (s.sysClose p fd).1.Inv := by
  unfold FdSys.sysClose
  cases hg : s.fdGet p fd with
  | none => exact h
  | some k => exact ⟨h.counts.drop hp (fdGet_some hg).1 (closed_ne_pipe rfl), h.names⟩

theorem Inv.sysDup (fd : Int) : (s.sysDup p fd).1.Inv := by
  unfold FdSys.sysDup
  cases hg : s.fdGet p fd with
  | none => exact h
  | some k =>
    simp only
    cases hf : s.firstClosed p 0 with
    | none => exact h
    | some i =>
      obtain ⟨h16, -, hc⟩ := firstClosed_some hf
      exact ⟨h.counts.addref hp h16 (closed_ne_pipe hc) (fun e j hk => refs_pos hp (fdGet_some hg).1 hk), h.names⟩

theorem Inv.sysDup2 (oldfd newfd : Int) : (s.sysDup2 p oldfd newfd).1.Inv := by
  unfold FdSys.sysDup2
  cases hg : s.fdGet p oldfd with
  | none => exact h
  | some old =>
    obtain ⟨hold16, holdeq, -⟩ := fdGet_some hg
    simp only
    split
    · exact h
    rename_i hr
    split
    · exact h
    rename_i hne
    have h16 : newfd.toNat < procMaxFds := by omega
    have hdrop : Counts s.live (update s.fds (p, newfd.toNat) .closed)
        (FdSys.drop s.pipes (s.fds (p, newfd.toNat)).kind) := h.counts.drop hp h16 (closed_ne_pipe rfl)
    have hkeep : update s.fds (p, newfd.toNat) .closed (p, old) = s.fds (p, old) :=
      update_of_ne (by simp; omega) _ _
    have hadd := hdrop.addref (x := s.fds (p, old)) hp h16
      (closed_ne_pipe (by rw [update_self]; rfl))
      (fun e i hk => refs_pos hp hold16 (by rw [hkeep]; exact hk))
    rw [update_idem] at hadd
    exact ⟨hadd, h.names⟩

end

/-! ## Fork and exit -/

theorem Inv.procAlloc (h : s.Inv) : s.procAlloc.Inv := by
  have hnew : s.next ∉ s.live := fun hm => lt_irrefl _ (h.names _ hm)
  constructor
  · refine h.counts.congr (fun e i => ?_)
    unfold refs FdSys.procAlloc
    congr 1
    ext q
    simp only [mem_filter, mem_product, mem_insert, mem_range]
    by_cases hq : q.1 = s.next
    · simp only [if_pos hq]
      constructor
      · rintro ⟨-, hk⟩
        split at hk
        · cases hk
        · split at hk <;> cases hk
      · rintro ⟨⟨hm, -⟩, -⟩
        exact absurd (hq ▸ hm) hnew
    · simp only [hq, false_or, if_false]
  · intro p hp
    show p < s.next + 1
    rcases mem_insert.1 hp with rfl | hm
    · omega
    · have := h.names p hm
      omega

/-- The loop of `sys_fork`, by induction on the number of descriptors copied: the places of the child not yet reached are
no pipe ends, and the parent's table stays. -/
theorem copyFds_inv {child : Nat} (hp : p ∈ s.live) (hc : child ∈ s.live) (hne : p ≠ child)
    (hstd : ∀ fd e i, (s.fds (child, fd)).kind ≠ .pipe e i) (h : s.Inv) : ∀ n, n ≤ procMaxFds →
    let r := copyFds p child n s
    r.Inv ∧ r.live = s.live ∧ (∀ fd, r.fds (p, fd) = s.fds (p, fd)) ∧ ∀ fd, n ≤ fd → r.fds (child, fd) = s.fds (child, fd)
  | 0, _ => ⟨h, rfl, fun _ => rfl, fun _ _ => rfl⟩
  | n + 1, hn => by
    obtain ⟨hinv, hlive, hpar, hrest⟩ := copyFds_inv hp hc hne hstd h n (by omega)
    rw [copyFds]
    generalize copyFds p child n s = t at hinv hlive hpar hrest ⊢
    refine ⟨⟨?_, hinv.names⟩, hlive, fun fd => ?_, fun fd hfd => ?_⟩
    · refine hinv.counts.addref (hlive ▸ hc) (by omega) (fun e i => ?_) (fun e i hk => ?_)
      · rw [hrest n (le_refl n)]
        exact hstd n e i
      · exact refs_pos (hlive ▸ hp) (by omega) hk
    · rw [← hpar fd]
      exact update_of_ne (by simp [hne]) _ _
    · rw [← hrest fd (by omega)]
      exact update_of_ne (by simp; omega) _ _

theorem procAlloc_std (s : FdSys) (fd : Nat) (e : PipeEnd) (i : Nat) : (s.procAlloc.fds (s.next, fd)).kind ≠ .pipe e i := by
  intro hk
  unfold procAlloc at hk
  simp only [if_true] at hk
  split at hk
  · cases hk
  · split at hk <;> cases hk

theorem Inv.sysFork (h : s.Inv) (hp : p ∈ s.live) (ok : Bool) : (s.sysFork p ok).1.Inv := by
  unfold FdSys.sysFork
  cases ok with
  | false =>
    rw [if_neg Bool.false_ne_true]
    exact h
  | true =>
    have hlt := h.names p hp
    have hcopy := (copyFds_inv (mem_insert_of_mem hp) (mem_insert_self _ _) (by omega)
      (procAlloc_std s) h.procAlloc procMaxFds (le_refl _)).1
    rw [if_pos rfl]
    generalize copyFds p s.next procMaxFds s.procAlloc = t at hcopy ⊢
    exact hcopy

def closedUpTo (fds : Nat × Nat → Fd) (p n : Nat) : Nat × Nat → Fd :=
  fun q => if q.1 = p ∧ q.2 < n then .closed else fds q

theorem closeEnds_counts (hp : p ∈ s.live) (h : s.Inv) : ∀ n, n ≤ procMaxFds → let r := closeEnds p n s
    r.live = s.live ∧ r.fds = s.fds ∧ r.next = s.next ∧ Counts s.live (closedUpTo s.fds p n) r.pipes
  | 0, _ => by
    refine ⟨rfl, rfl, rfl, h.counts.congr (fun e i => ?_)⟩
    have hz : closedUpTo s.fds p 0 = s.fds := by
      funext q
      exact if_neg (by omega)
    rw [hz]
  | n + 1, hn => by
    obtain ⟨hlive, hfds, hnext, hcounts⟩ := closeEnds_counts hp h n (by omega)
    refine ⟨hlive, hfds, hnext, ?_⟩
    have hat : closedUpTo s.fds p n (p, n) = s.fds (p, n) := if_neg (by simp)
    have hupd : update (closedUpTo s.fds p n) (p, n) .closed = closedUpTo s.fds p (n + 1) := by
      funext q
      by_cases hq : q = (p, n)
      · subst hq
        rw [update_self]
        exact (if_pos ⟨rfl, Nat.lt_succ_self n⟩).symm
      rw [update_of_ne hq]
      refine if_congr ⟨fun hc => ⟨hc.1, by omega⟩, fun hc => ⟨hc.1, ?_⟩⟩ rfl rfl
      rcases Nat.lt_succ_iff_lt_or_eq.1 hc.2 with hlt | heq
      · exact hlt
      · exact absurd (Prod.ext hc.1 heq) hq
    have hd : Counts s.live (update (closedUpTo s.fds p n) (p, n) .closed)
        (drop (closeEnds p n s).pipes (closedUpTo s.fds p n (p, n)).kind) :=
      hcounts.drop hp (by omega) (closed_ne_pipe rfl)
    rw [hat, hupd] at hd
    rw [closeEnds]
    simp only [hfds]
    exact hd

theorem Inv.sysExit (h : s.Inv) (hp : p ∈ s.live) : (s.sysExit p).Inv := by
  have hloop := closeEnds_counts hp h procMaxFds (le_refl _)
  unfold FdSys.sysExit
  generalize closeEnds p procMaxFds s = t at hloop ⊢
  obtain ⟨hlive, hfds, hnext, hcounts⟩ := hloop
  constructor
  · show Counts (t.live.erase p) t.fds t.pipes
    rw [hlive, hfds]
    refine hcounts.congr (fun e i => ?_)
    unfold refs closedUpTo
    congr 1
    ext q
    simp only [mem_filter, mem_product, mem_erase, mem_range]
    by_cases hq : q.1 = p
    · constructor
      · rintro ⟨⟨⟨hne, -⟩, -⟩, -⟩
        exact absurd hq hne
      · rintro ⟨⟨-, hlt⟩, hk⟩
        rw [if_pos ⟨hq, hlt⟩] at hk
        cases hk
    · rw [if_neg (fun hc => hq hc.1)]
      tauto
  · intro q hq
    show q < t.next
    rw [hnext]
    refine h.names q ?_
    have hq' : q ∈ t.live.erase p := hq
    rw [hlive] at hq'
    exact mem_of_mem_erase hq'

theorem Inv.step (h : s.Inv) (c : Nat × Call) : (s.step c).1.Inv := by
  obtain ⟨p, c⟩ := c
  unfold FdSys.step
  by_cases hp : p ∈ s.live
  · rw [if_pos hp]
    cases c with
    | pipe => exact h.sysPipe hp
    | openFile o => exact h.sysOpen hp o
    | dup fd => exact h.sysDup hp fd
    | dup2 oldfd newfd => exact h.sysDup2 hp oldfd newfd
    | close fd => exact h.sysClose hp fd
    | fork ok => exact h.sysFork hp ok
    | exec => exact h
    | exit => exact h.sysExit hp
  · rw [if_neg hp]
    exact h

theorem boot_inv : boot.Inv := by
  have h0 : Inv { live := {0}, next := 1, fds := fun _ => .closed, pipes := fun _ => ⟨⟨fun _ => 0, 0, 0, 0⟩, 0, 0, false⟩ } := by
    have hz : ∀ e i, refs {0} (fun _ => .closed) e i = 0 := by
      intro e i
      refine card_eq_zero.2 (filter_eq_empty_iff.2 (fun q _ hk => ?_))
      cases hk
    refine ⟨fun i => ⟨(hz .r i).symm, (hz .w i).symm, ⟨fun _ => ⟨hz .r i, hz .w i⟩, fun _ => rfl⟩⟩, fun p hp => ?_⟩
    rw [mem_singleton.1 hp]
    exact Nat.one_pos
  exact h0.procAlloc.procAlloc

/-- **Pipe end counts are exact.**  After any calls of any processes, `readers` and `writers` of a pipe count the
descriptors of its two ends in the tables of processes that are not zombies, `used` is 0 exactly when there are none, and
so the pipe a `sys_pipe` hands out is one no descriptor refers to. -/
theorem pipe_ends_exact (cs : List (Nat × Call)) : let s := (run step boot cs).1
    (∀ i, (s.pipes i).readers = refs s.live s.fds .r i ∧ (s.pipes i).writers = refs s.live s.fds .w i ∧
      ((s.pipes i).used = false ↔ refs s.live s.fds .r i = 0 ∧ refs s.live s.fds .w i = 0)) ∧
    ∀ p rfd wfd, (s.sysPipe p).2 = some (rfd, wfd) → ∃ i, ((s.sysPipe p).1.fds (p, wfd)).kind = .pipe .w i ∧
      ∀ e q fd, q ∈ s.live → fd < procMaxFds → (s.fds (q, fd)).kind ≠ .pipe e i := by
  intro s
  have hs : s.Inv := run_inv (C := fun _ _ => True) (fun s c h _ => h.step c) cs boot boot_inv (fun _ _ _ _ => trivial)
  refine ⟨fun i => ⟨(hs.counts i).readers, (hs.counts i).writers, (hs.counts i).used⟩, fun p rfd wfd hpipe => ?_⟩
  rcases sysPipe_cases s p with heq | ⟨a, b, i, -, -, -, -, hunused, heq⟩
  · rw [heq] at hpipe
    cases hpipe
  rw [heq] at hpipe ⊢
  obtain ⟨rfl, rfl⟩ := Prod.mk.inj (Option.some.inj hpipe)
  have hzero := (hs.counts i).used.1 hunused
  refine ⟨i, by dsimp only; rw [update_self], fun e q fd hq hfd hk => ?_⟩
  have hpos := refs_pos hq hfd hk
  cases e
  · omega
  · omega

/-- **Who waits on a pipe.**  After any calls of any processes, whatever bytes pipe `i` holds: `pipe_read` waits exactly when bytes
are missing and a live process has a descriptor of the write end, and `pipe_write` gives up exactly when it has bytes to
write and no live process has one of the read end. -/
theorem pipe_waits_iff (cs : List (Nat × Call)) (i left : Nat) (r : Ring UInt8) (data : List UInt8) :
    let s := (run step boot cs).1
    let p : Pipe := { s.pipes i with toRing := r }
    let Held e := ∃ q ∈ s.live, ∃ fd < procMaxFds, (s.fds (q, fd)).kind = .pipe e i
    ((p.readSeg left).2.2 = false ↔ r.count < left ∧ Held .w) ∧
    ((p.writeSeg data).2.2 = .broken ↔ data ≠ [] ∧ ¬ Held .r) := by
  intro s p Held
  have hs : s.Inv := run_inv (C := fun _ _ => True) (fun s c h _ => h.step c) cs boot boot_inv (fun _ _ _ _ => trivial)
  have hheld : ∀ e, refs s.live s.fds e i ≠ 0 ↔ Held e := fun e => by
    rw [refs, card_ne_zero]
    constructor
    · rintro ⟨⟨q, fd⟩, hq⟩
      obtain ⟨hq, hk⟩ := mem_filter.1 hq
      exact ⟨q, (mem_product.1 hq).1, fd, mem_range.1 (mem_product.1 hq).2, hk⟩
    · rintro ⟨q, hq, fd, hfd, hk⟩
      exact card_pos.1 (refs_pos hq hfd hk)
  rw [Pipe.readSeg_waits, Pipe.writeSeg_broken, ← hheld, ← hheld, not_not]
  exact ⟨and_congr_right' (by rw [← (hs.counts i).writers]), and_congr_right' (by rw [← (hs.counts i).readers])⟩

end FdSys
end Noxis
