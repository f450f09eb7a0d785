import Noxis.Files
import Noxis.Written
import Noxis.Created
/-!
# Shared — writes through copied descriptors

`fork`, `dup` and `dup2` copy a descriptor with its offset, and from then on each copy moves its own.  Starting from an empty
file, the writes through any number of copies make the file the concatenation of the chunks if and only if every one of them
finds its offset at the end of the file (`shared_writes_concat`): the size of the file grows by the whole chunk only then.
-/
namespace Noxis

open List Function FdSys FileRef Nat

namespace FdSys

def Copies (s t : FdSys) : Prop := ∀ q f, (t.fds q).kind = .file f → ∃ q', s.fds q' = t.fds q

variable {s t u : FdSys} {p : Nat}

theorem Copies.of_eq (h : t.fds = s.fds) : Copies s t := fun q _ _ => ⟨q, by rw [h]⟩

theorem Copies.trans (h : Copies s t) (h' : Copies t u) : Copies s u := by
  intro q f hf
  obtain ⟨q', hq'⟩ := h' q f hf
  obtain ⟨q'', hq''⟩ := h q' f (by rw [hq']; exact hf)
  exact ⟨q'', hq''.trans hq'⟩

theorem Copies.setFd {x : Fd} (fd : Nat) (hx : ∀ f, x.kind = .file f → ∃ q, s.fds q = x) : Copies s (s.setFd p fd x) := by
  intro q f hf
  by_cases hq : q = (p, fd)
  · subst hq
    simp only [FdSys.setFd, update_self] at hf ⊢
    exact hx f hf
  · exact ⟨q, (update_of_ne hq _ _).symm⟩

theorem Copies.procAlloc (s : FdSys) : Copies s s.procAlloc := by
  intro q f hf
  simp only [FdSys.procAlloc] at hf ⊢
  by_cases hq : q.1 = s.next
  · rw [if_pos hq] at hf
    split at hf
    · cases hf
    · split at hf <;> cases hf
  · exact ⟨q, by rw [if_neg hq]⟩

theorem Copies.copyFds (p child : Nat) : ∀ (n : Nat) (s : FdSys), Copies s (copyFds p child n s)
  | 0, _ => Copies.of_eq rfl
  | n + 1, s => (Copies.copyFds p child n s).trans
      (Copies.trans (Copies.of_eq rfl) (Copies.setFd n fun _ _ => ⟨(p, n), rfl⟩))

theorem closeEnds_fds (p : Nat) : ∀ (n : Nat) (s : FdSys), (closeEnds p n s).fds = s.fds
  | 0, _ => rfl
  | n + 1, s => closeEnds_fds p n s

theorem Copies.dup (s : FdSys) (p : Nat) (fd : Int) : Copies s (s.sysDup p fd).1 := by
  unfold sysDup
  split
  · exact Copies.of_eq rfl
  · rename_i n _
    split
    · exact Copies.of_eq rfl
    · exact Copies.trans (Copies.of_eq rfl) (Copies.setFd _ fun _ _ => ⟨(p, n), rfl⟩)

theorem Copies.dup2 (s : FdSys) (p : Nat) (oldfd newfd : Int) : Copies s (s.sysDup2 p oldfd newfd).1 := by
  unfold sysDup2
  split
  · exact Copies.of_eq rfl
  rename_i n _
  split
  · exact Copies.of_eq rfl
  · split
    · exact Copies.of_eq rfl
    · exact Copies.trans (Copies.of_eq rfl) (Copies.setFd _ fun _ _ => ⟨(p, n), rfl⟩)

theorem Copies.close (s : FdSys) (p : Nat) (fd : Int) : Copies s (s.sysClose p fd).1 := by
  unfold sysClose
  split
  · exact Copies.of_eq rfl
  · exact Copies.trans (Copies.of_eq rfl) (Copies.setFd _ fun f hf => by cases hf)

theorem Copies.fork (s : FdSys) (p : Nat) (ok : Bool) : Copies s (s.sysFork p ok).1 := by
  unfold sysFork
  split
  · exact (Copies.procAlloc s).trans (Copies.copyFds p s.next procMaxFds _)
  · exact Copies.of_eq rfl

theorem Copies.exit (s : FdSys) (p : Nat) : Copies s (s.sysExit p) := Copies.of_eq (closeEnds_fds p procMaxFds s)

end FdSys

namespace Files

variable {s : Files} {k p : Nat}

def Call.chunk : Call → List UInt8
  | .write _ data => data
  | _ => []

/-- The call copies or drops descriptors, or is a write to slot `k` that succeeds. -/
def ShareOk (k : Nat) (s : Files) (c : Env × Nat × Call) : Prop :=
  match c.2.2 with
  | .write fd data => c.2.1 ∈ s.fd.live ∧ (s.step c).2 = .num data.length ∧
      ∃ n, s.target c.2.1 fd 1 = some n ∧ (s.fd.fds (c.2.1, n)).kind = .file (.nox k)
  | .dup _ => True
  | .dup2 _ _ => True
  | .close _ => True
  | .fork _ => True
  | .exit => True
  | _ => False

/-- If the call writes something, the descriptor it goes through is at the end of the file. -/
def AtEnd (k : Nat) (s : Files) (c : Env × Nat × Call) : Prop :=
  match c.2.2 with
  | .write fd data => data ≠ [] → ∀ n, s.target c.2.1 fd 1 = some n → (s.fd.fds (c.2.1, n)).offset = (s.fs.files k).size
  | _ => True

structure Within (k : Nat) (s : Files) : Prop where
  size : (s.fs.files k).size ≤ 138 * 512
  offset : ∀ q, (s.fd.fds q).kind = .file (.nox k) → (s.fd.fds q).offset ≤ (s.fs.files k).size

variable {n : Nat}

theorem int32_eq (h : int32 (n % 2 ^ 32) = n) : n < 2 ^ 31 := by
  unfold int32 at h
  split at h <;> omega

variable {h : Heap} {fd : Int} {data : List UInt8} {r : Fs × Option Nat}

theorem sysWrite_file {f : FileRef} (ht : s.target p fd 1 = some n) (hk : (s.fd.fds (p, n)).kind = .file f)
    (hr : s.fs.write h f.slot (s.fd.fds (p, n)).offset (data.take (data.length % 2 ^ 32)) = r) :
    s.sysWrite h p fd data = match r.2 with
      | none => ({ s with fs := r.1 }, .num (-1))
      | some w => ({ s with
          fs := r.1
          fd := if 0 < int32 w then s.fd.setFd p n ⟨.file f, ((s.fd.fds (p, n)).offset + w) % 2 ^ 32⟩ else s.fd }, .num (int32 w)) := by
  unfold sysWrite
  rw [ht]
  simp only [hk, hr]
  cases r.2 with
  | none => rfl
  | some w =>
    dsimp only
    split <;> rfl

/-- **A successful write** through descriptor `n`: the buffer is written, and that descriptor moves on. -/
theorem sysWrite_ok (hw : Within k s) (ht : s.target p fd 1 = some n)
    (hk : (s.fd.fds (p, n)).kind = .file (.nox k)) (hne : data ≠ []) (hok : (s.sysWrite h p fd data).2 = .num data.length) :
    ∃ r, Fs.Poked s.fs k (s.fd.fds (p, n)).offset data r ∧ (r.1.files k).size ≤ 138 * 512 ∧ s.sysWrite h p fd data =
        ({ s with fs := r.1, fd := s.fd.setFd p n ⟨.file (.nox k), (s.fd.fds (p, n)).offset + data.length⟩ }, .num data.length) := by
  have hoff := hw.offset _ hk
  have hsize := hw.size
  have hlen : 0 < data.length := length_pos_iff.2 hne
  have heq := sysWrite_file ht hk
    (rfl : s.fs.write h (nox k).slot (s.fd.fds (p, n)).offset (data.take (data.length % 2 ^ 32)) = _)
  rw [heq] at hok
  cases hr : (s.fs.write h (nox k).slot (s.fd.fds (p, n)).offset (data.take (data.length % 2 ^ 32))).2 with
  | none =>
    simp only [hr, Answer.num.injEq] at hok
    omega
  | some w =>
    simp only [hr, Answer.num.injEq] at hok heq
    -- the length is an `int32_t`, so nothing was cut off
    have hwl := Fs.write_answer hr
    rw [length_take_of_le (mod_le _ _)] at hwl
    have hsmall := int32_eq (hwl ▸ hok)
    rw [mod_eq_of_lt (by omega)] at hwl
    have hcut : data.take (data.length % 2 ^ 32) = data := by rw [mod_eq_of_lt (by omega), take_length]
    rw [hcut] at hr heq
    have hoff' : (s.fd.fds (p, n)).offset + data.length < 2 ^ 32 := by omega
    rcases @Fs.write_poked s.fs h k _ _ hne hoff' with hfail | hpoked
    · rw [show (nox k).slot = k from rfl, hfail] at hr
      cases hr
    refine ⟨_, hpoked, ?_, ?_⟩
    · have hans := hpoked.answer
      rw [show (nox k).slot = k from rfl] at hr
      rw [hr] at hans
      split at hans
      · rename_i hst
        refine storeData_size_le ?_ hst
        rw [hpoked.size]
        omega
      · cases hans
    · rw [heq, hok, if_pos (by omega), hwl, mod_eq_of_lt (by omega)]
      rfl

/-- What one step does: the file grows by the chunk at most, by all of it only if the write is at the end, and then the chunk
is appended. -/
structure Grows (k : Nat) (s : Files) (c : Env × Nat × Call) : Prop where
  inv : Within k (s.step c).1
  le : ((s.step c).1.fs.files k).size ≤ (s.fs.files k).size + c.2.2.chunk.length
  whole : ((s.step c).1.fs.files k).size = (s.fs.files k).size + c.2.2.chunk.length → AtEnd k s c
  appended : AtEnd k s c → (s.step c).1.fs.content k = s.fs.content k ++ c.2.2.chunk

variable {c : Env × Nat × Call}

theorem Grows.of_copies (hw : Within k s) (hfs : (s.step c).1.fs = s.fs)
    (hcopies : FdSys.Copies s.fd (s.step c).1.fd) (hchunk : c.2.2.chunk = []) (hend : AtEnd k s c) : Grows k s c := by
  refine ⟨⟨by rw [hfs]; exact hw.size, fun q hq => ?_⟩, by rw [hfs]; omega, fun _ => hend, fun _ => by rw [hfs, hchunk, append_nil]⟩
  obtain ⟨q', hq'⟩ := hcopies q _ hq
  rw [hfs, ← hq']
  exact hw.offset q' (by rw [hq']; exact hq)

theorem getD_range (data : List UInt8) : (List.range data.length).map (fun x => data.getD x 0) = data := by
  refine ext_getElem (by simp) (fun j h1 h2 => ?_)
  rw [getElem_map, getElem_range, getD_eq_getElem _ _ h2]

theorem content_poked {fs : Fs} (hp : Fs.Poked fs k (fs.files k).size data r) : r.1.content k = fs.content k ++ data := by
  have hsize : (r.1.files k).size = (fs.files k).size + data.length := by rw [hp.size]; omega
  unfold Fs.content
  rw [hsize, range_add, map_append, map_map]
  congr 1
  · apply map_congr_left
    intro x hx
    have hlt := mem_range.1 hx
    exact hp.kept x hlt (.inl hlt)
  · conv => rhs; rw [← getD_range data]
    apply map_congr_left
    intro x hx
    have hlt := mem_range.1 hx
    rw [comp_apply, hp.written _ (by omega) (by omega), Nat.add_sub_cancel_left]

theorem Grows.write {e : Env} (hw : Within k s) (hok : ShareOk k s (e, p, .write fd data)) :
    Grows k s (e, p, .write fd data) := by
  obtain ⟨hlive, hans, n, ht, hk⟩ := hok
  dsimp only at hlive ht hk
  have hstep : s.step (e, p, .write fd data) = s.sysWrite e.heap p fd data := if_pos hlive
  rw [hstep] at hans
  by_cases hne : data = []
  · subst hne
    have h0 : int32 0 = 0 := by unfold int32; rw [if_pos (by omega)]; rfl
    have heq : s.sysWrite e.heap p fd [] = (s, .num 0) := by
      rw [sysWrite_file (r := (s.fs, some 0)) ht hk (by rw [take_nil]; exact if_pos rfl)]
      dsimp only
      rw [h0, if_neg (Int.lt_irrefl 0)]
    refine Grows.of_copies hw (by rw [hstep, heq]) (FdSys.Copies.of_eq (by rw [hstep, heq])) rfl (fun h => absurd rfl h)
  · obtain ⟨r, hp, hmax, heq⟩ := sysWrite_ok hw ht hk hne hans
    have hoff := hw.offset _ hk
    have hlen : 0 < data.length := length_pos_iff.2 hne
    have hsize := hp.size
    have hfs : (s.step (e, p, .write fd data)).1.fs = r.1 := by rw [hstep, heq]
    have hend : AtEnd k s (e, p, .write fd data) → (s.fd.fds (p, n)).offset = (s.fs.files k).size := fun h => h hne n ht
    refine ⟨⟨by rw [hfs]; exact hmax, fun q hq => ?_⟩, ?_, fun heqs hd m hm => ?_, fun h => ?_⟩
    · rw [hstep, heq] at hq ⊢
      dsimp only [setFd] at hq ⊢
      rw [hsize]
      by_cases hqn : q = (p, n)
      · subst hqn
        rw [update_self]
        dsimp only
        omega
      · rw [update_of_ne hqn] at hq ⊢
        have := hw.offset q hq
        omega
    · rw [hfs, hsize]
      dsimp only [Call.chunk]
      omega
    · obtain rfl := Option.some.inj (ht.symm.trans hm)
      rw [hfs, hsize] at heqs
      dsimp only [Call.chunk] at heqs ⊢
      omega
    · rw [hfs]
      rw [hend h] at hp
      exact content_poked hp

theorem Within.grows (hw : Within k s) (hok : ShareOk k s c) : Grows k s c := by
  obtain ⟨e, p, c⟩ := c
  by_cases hlive : p ∈ s.fd.live
  · have hstep : s.step (e, p, c) = s.call e p c := if_pos hlive
    cases c with
    | write fd data => exact Grows.write hw hok
    | dup fd => exact Grows.of_copies hw (by rw [hstep]; rfl) (by rw [hstep]; exact FdSys.Copies.dup s.fd p fd) rfl trivial
    | dup2 a b => exact Grows.of_copies hw (by rw [hstep]; rfl) (by rw [hstep]; exact FdSys.Copies.dup2 s.fd p a b) rfl trivial
    | close fd => exact Grows.of_copies hw (by rw [hstep]; rfl) (by rw [hstep]; exact FdSys.Copies.close s.fd p fd) rfl trivial
    | fork ok => exact Grows.of_copies hw (by rw [hstep]; rfl) (by rw [hstep]; exact FdSys.Copies.fork s.fd p ok) rfl trivial
    | exit => exact Grows.of_copies hw (by rw [hstep]; rfl) (by rw [hstep]; exact FdSys.Copies.exit s.fd p) rfl trivial
    | _ => exact absurd hok id
  · have hstep : s.step (e, p, c) = (s, .num (-1)) := if_neg hlive
    have hquiet : c.chunk = [] ∧ AtEnd k s (e, p, c) := by
      cases c with
      | write fd data => exact absurd hok.1 hlive
      | _ => exact ⟨rfl, trivial⟩
    exact Grows.of_copies hw (by rw [hstep]) (by rw [hstep]; exact FdSys.Copies.of_eq rfl) hquiet.1 hquiet.2

/-- **A run of calls**: the file grows by the chunks at most, by all of them only if every write is at the end, and then they
are appended in the order of the calls. -/
theorem run_grows (k : Nat) : ∀ (calls : List (Env × Nat × Call)) (s : Files), Within k s →
    (∀ pre c post, calls = pre ++ c :: post → ShareOk k (run step s pre).1 c) →
    ((run step s calls).1.fs.files k).size ≤ (s.fs.files k).size + (calls.flatMap fun c => c.2.2.chunk).length ∧
    (((run step s calls).1.fs.files k).size = (s.fs.files k).size + (calls.flatMap fun c => c.2.2.chunk).length →
      ∀ pre c post, calls = pre ++ c :: post → AtEnd k (run step s pre).1 c) ∧
    ((∀ pre c post, calls = pre ++ c :: post → AtEnd k (run step s pre).1 c) →
      (run step s calls).1.fs.content k = s.fs.content k ++ calls.flatMap fun c => c.2.2.chunk)
  | [], s, _, _ => ⟨le_refl _, fun _ pre c post h => absurd h (by simp), fun _ => (append_nil _).symm⟩
  | c :: cs, s, hw, hok => by
    have hg := hw.grows (hok [] c cs rfl)
    obtain ⟨hle, hwhole, happ⟩ := run_grows k cs (s.step c).1 hg.inv (fun pre d post h => hok (c :: pre) d post (by rw [h]; rfl))
    have hle1 := hg.le
    rw [run_cons]
    dsimp only
    rw [flatMap_cons, length_append]
    refine ⟨by omega, fun heq => splits_cons.2 ⟨hg.whole (by omega), hwhole (by omega)⟩, fun hall => ?_⟩
    obtain ⟨h1, h2⟩ := splits_cons.1 hall
    rw [happ h2, hg.appended h1, append_assoc]

/-- **Shared output.**  A file is empty, and every descriptor of it is at its start.  After any calls that copy or drop
descriptors, and writes to the file through any of them that all succeed, the file is the concatenation of the chunks in the
order of the calls if and only if each write found its descriptor at the end of the file. -/
theorem shared_writes_concat (s : Files) (k : Nat) (hempty : (s.fs.files k).size = 0)
    (hstart : ∀ q, (s.fd.fds q).kind = .file (.nox k) → (s.fd.fds q).offset = 0) (calls : List (Env × Nat × Call))
    (hok : ∀ pre c post, calls = pre ++ c :: post → ShareOk k (run step s pre).1 c) :
    (run step s calls).1.fs.content k = (calls.flatMap fun c => c.2.2.chunk) ↔
      ∀ pre c post, calls = pre ++ c :: post → AtEnd k (run step s pre).1 c := by
  have hw : Within k s := ⟨by omega, fun q hq => by rw [hstart q hq]; exact zero_le _⟩
  obtain ⟨-, hwhole, happ⟩ := run_grows k calls s hw hok
  have hnil : s.fs.content k = [] := by
    unfold Fs.content
    rw [hempty]
    rfl
  rw [hempty, zero_add] at hwhole
  rw [hnil, nil_append] at happ
  refine ⟨fun heq => hwhole ?_, happ⟩
  rw [← heq, Fs.content_length]

def openedFiles : Files where
  fd := FdSys.boot.setFd 1 3 ⟨.file (.nox 0), 0⟩
  fs := ((Fs.bare rootVol).creat calm [97]).1
  cwdIno := fun _ => 0
  poolNext := 0

def calmEnv : Env := ⟨calm, [], fun _ => false⟩

theorem boot_no_file (q : Nat × Nat) (f : FileRef) : (FdSys.boot.fds q).kind ≠ .file f := by
  intro hf
  obtain ⟨q', hq'⟩ := (FdSys.Copies.procAlloc _).trans (FdSys.Copies.procAlloc _) q f hf
  unfold FdSys.boot at hf
  rw [← hq'] at hf
  cases hf

/-- One process writes twice. -/
theorem shared_writes_concat_single :
    (run step openedFiles [(calmEnv, 1, .write 3 [1]), (calmEnv, 1, .write 3 [2])]).1.fs.content 0 = [1, 2] := by
  refine (shared_writes_concat openedFiles 0 (by decide +kernel) (fun q hq => ?_)
    [(calmEnv, 1, .write 3 [1]), (calmEnv, 1, .write 3 [2])] (splits_cons.2 ⟨?_, splits_cons.2 ⟨?_, splits_nil⟩⟩)).2
    (splits_cons.2 ⟨fun _ n hn => ?_, splits_cons.2 ⟨fun _ n hn => ?_, splits_nil⟩⟩)
  · by_cases hq3 : q = (1, 3)
    · subst hq3
      decide +kernel
    · unfold openedFiles setFd at hq
      simp only [update_of_ne hq3] at hq
      exact absurd hq (boot_no_file q _)
  · exact ⟨by decide +kernel, by decide +kernel, 3, by decide +kernel, by decide +kernel⟩
  · exact ⟨by decide +kernel, by decide +kernel, 3, by decide +kernel, by decide +kernel⟩
  · have h3 : openedFiles.target 1 3 1 = some 3 := by decide +kernel
    obtain rfl := Option.some.inj (h3.symm.trans hn)
    decide +kernel
  · have h3 : (run step openedFiles [(calmEnv, 1, .write 3 [1])]).1.target 1 3 1 = some 3 := by decide +kernel
    obtain rfl := Option.some.inj (h3.symm.trans hn)
    decide +kernel

/-- **Parent and child write one byte each**: both writes succeed, and the child's is over the parent's. -/
theorem forked_writes_overlap :
    (run step openedFiles [(calmEnv, 1, .fork true), (calmEnv, 1, .write 3 [1]), (calmEnv, 3, .write 3 [2])]).2 =
      [.num 3, .num 1, .num 1] ∧
    (run step openedFiles [(calmEnv, 1, .fork true), (calmEnv, 1, .write 3 [1]), (calmEnv, 3, .write 3 [2])]).1.fs.content 0 = [2] :=
  ⟨by decide +kernel, by decide +kernel⟩

end Files
end Noxis
