import Noxis.Files
/-!
# Procfs — the names of processes under `/proc`

`procfs_lookup` and `procfs_resolve` read the pid of a path with `_parse_uint`, modulo 2^64, and `PROCFS_PID_INO` keeps 16
bits of it: `proc_names_exact_iff` says when a name still stands for the process it is the number of.
-/
namespace Noxis

open List Option

variable {π : Type}

/-- The file a generator of procfs makes. -/
inductive ProcFile (π : Type) where
  | uptime
  | meminfo
  | status (p : π)
  deriving DecidableEq

/-- `procfs_lookup` over the list of processes that `scheduler_find` goes through. -/
def procfsLookup (pid : π → Nat) (procs : List π) (path : List UInt8) : Option (ProcFile π) :=
  match path.drop 5 with
  | 47 :: rest =>
    if rest = [117, 112, 116, 105, 109, 101] then some .uptime
    else if rest = [109, 101, 109, 105, 110, 102, 111] then some .meminfo
    else if rest.takeWhile isDigit ≠ [] ∧ rest.dropWhile isDigit = [47, 115, 116, 97, 116, 117, 115] then
      (procs.find? (fun p => pid p == parseUint (rest.takeWhile isDigit))).map .status
    else none
  | _ => none

/-- The number a string of digits denotes. -/
def denotes (D : List UInt8) : Nat := D.foldl (fun n c => n * 10 + (c.toNat - 48)) 0

def procPath (D : List UInt8) : List UInt8 := [47, 112, 114, 111, 99, 47] ++ D

def statusPath (D : List UInt8) : List UInt8 := procPath D ++ [47, 115, 116, 97, 116, 117, 115]

abbrev Decimal (D : List UInt8) : Prop := D ≠ [] ∧ ∀ c ∈ D, isDigit c = true

theorem parseUint_eq (D : List UInt8) : parseUint D = denotes D % 2 ^ 64 := by
  have h : ∀ (D : List UInt8) (n : Nat), D.foldl (fun n c => (n * 10 + (c.toNat - 48)) % 2 ^ 64) (n % 2 ^ 64) =
      D.foldl (fun n c => n * 10 + (c.toNat - 48)) n % 2 ^ 64 := by
    intro D
    induction D with
    | nil => exact fun n => rfl
    | cons c D ih =>
      intro n
      rw [foldl_cons, foldl_cons, ← ih]
      congr 1
      omega
  exact h D 0

variable {pid : π → Nat} {procs : List π} {D : List UInt8}

theorem procfsLookup_status (hD : Decimal D) : procfsLookup pid procs (statusPath D) =
    (procs.find? (fun p => pid p == denotes D % 2 ^ 64)).map .status := by
  have hhead : ∀ t : List UInt8, isDigit (t.headD 0) = false → D ++ [47, 115, 116, 97, 116, 117, 115] ≠ t := by
    obtain ⟨c, D', rfl⟩ := exists_cons_of_ne_nil hD.1
    rintro t ht rfl
    exact absurd ((hD.2 c mem_cons_self).symm.trans ht) (by decide)
  set r := D ++ [47, 115, 116, 97, 116, 117, 115]
  have htake : r.takeWhile isDigit = D :=
    (takeWhile_append_of_pos hD.2).trans (append_nil D)
  have hdrop : r.dropWhile isDigit = [47, 115, 116, 97, 116, 117, 115] :=
    dropWhile_append_of_pos hD.2
  refine (if_neg (hhead _ (by decide))).trans ((if_neg (hhead _ (by decide))).trans ((if_pos ⟨?_, hdrop⟩).trans ?_))
  · exact congrArg (fun n => (procs.find? (fun p => pid p == n)).map ProcFile.status)
      ((congrArg parseUint htake).trans (parseUint_eq D))
  · exact fun h => hD.1 (htake.symm.trans h)

theorem procfsResolve_pid (hD : Decimal D) : procfsResolve (procPath D) = inoOf (procfsPidIno (denotes D % 2 ^ 64)) := by
  obtain ⟨c, D', rfl⟩ := exists_cons_of_ne_nil hD.1
  have htake : (c :: D').takeWhile isDigit = c :: D' := takeWhile_eq_self_iff.2 hD.2
  rw [← parseUint_eq]
  exact if_pos ⟨fun h => hD.1 (htake.symm.trans h), dropWhile_eq_nil_iff.2 hD.2⟩

/-- **When `/proc` names processes exactly.**  A number is read right unless it is 2^64 or more and, modulo 2^64, the pid of a
process; the directories have inodes of their own exactly when the pids differ in their low 16 bits and none of these is
`0xFFFE` or `0xFFFF`. -/
theorem proc_names_exact_iff (pid : π → Nat) (procs : List π) (name : π → List UInt8) (D : List UInt8) (hD : Decimal D)
    (hpid : ∀ p ∈ procs, pid p < 2 ^ 64) (hinj : ∀ p ∈ procs, ∀ q ∈ procs, pid p = pid q → p = q)
    (hname : ∀ p ∈ procs, Decimal (name p) ∧ denotes (name p) = pid p) :
    (((∀ p, procfsLookup pid procs (statusPath D) = some (.status p) ↔ p ∈ procs ∧ pid p = denotes D) ∧
        (procfsLookup pid procs (statusPath D) = none ↔ ∀ p ∈ procs, pid p ≠ denotes D)) ↔
      (denotes D < 2 ^ 64 ∨ ∀ p ∈ procs, pid p ≠ denotes D % 2 ^ 64)) ∧
    ((∀ p ∈ procs, ∃ ino, procfsResolve (procPath (name p)) = some ino ∧ ino ≠ procfsRootIno ∧
        ∀ q ∈ procs, q ≠ p → procfsResolve (procPath (name q)) ≠ some ino) ↔
      ∀ p ∈ procs, pid p % 2 ^ 16 < 0xFFFE ∧ ∀ q ∈ procs, q ≠ p → pid q % 2 ^ 16 ≠ pid p % 2 ^ 16) := by
  have hfind : ∀ n p, procs.find? (fun p => pid p == n) = some p ↔ p ∈ procs ∧ pid p = n := by
    refine fun n p => ⟨fun h => ⟨mem_of_find?_eq_some h, by simpa using find?_some h⟩, fun h => ?_⟩
    cases hf : procs.find? (fun p => pid p == n) with
    | none => exact absurd (find?_eq_none.1 hf p h.1) (by simp [h.2])
    | some q => rw [hinj q (mem_of_find?_eq_some hf) p h.1 ((by simpa using find?_some hf : pid q = n).trans h.2.symm)]
  have hres : ∀ p ∈ procs, procfsResolve (procPath (name p)) = inoOf (procfsPidIno (pid p)) := fun p hp => by
    rw [procfsResolve_pid (hname p hp).1, (hname p hp).2, Nat.mod_eq_of_lt (hpid p hp)]
  refine ⟨?_, ?_⟩
  · rw [procfsLookup_status hD]
    have hs : ∀ p, (procs.find? (fun p => pid p == denotes D % 2 ^ 64)).map ProcFile.status = some (.status p) ↔
        p ∈ procs ∧ pid p = denotes D % 2 ^ 64 := by simp [hfind]
    simp only [hs, map_eq_none_iff, find?_eq_none, beq_iff_eq]
    constructor
    · intro h
      by_contra hc
      simp only [not_or, not_forall, not_not, not_lt] at hc
      obtain ⟨hge, p, hp, he⟩ := hc
      have := ((h.1 p).1 ⟨hp, he⟩).2
      have := hpid p hp
      omega
    · rintro (h | h)
      · rw [Nat.mod_eq_of_lt h]
        exact ⟨fun _ => Iff.rfl, Iff.rfl⟩
      · have hne : ∀ p ∈ procs, pid p ≠ denotes D := fun p hp he => h p hp (by rw [← he, Nat.mod_eq_of_lt (hpid p hp)])
        exact ⟨fun p => ⟨fun hp => absurd hp.2 (h p hp.1), fun hp => absurd hp.2 (hne p hp.1)⟩, fun _ => hne, fun _ => h⟩
  · refine forall₂_congr (fun p hp => ?_)
    rw [hres p hp]
    unfold inoOf procfsPidIno procfsRootIno
    constructor
    · rintro ⟨ino, h1, h2, h3⟩
      split at h1
      · cases h1
      · cases h1
        refine ⟨by omega, fun q hq hqp he => h3 q hq hqp ?_⟩
        rw [hres q hq, inoOf, procfsPidIno, he, if_neg (by omega)]
    · rintro ⟨h1, h2⟩
      refine ⟨_, if_neg (by omega), by omega, fun q hq hqp he => ?_⟩
      rw [hres q hq] at he
      unfold inoOf procfsPidIno at he
      split at he
      · cases he
      · exact h2 q hq hqp (by have := some.inj he; omega)

theorem proc_names_exact_one : procfsLookup id [1, 2] (statusPath [49]) = some (.status 1) ∧
    ∃ ino, procfsResolve (procPath [49]) = some ino ∧ ino ≠ procfsRootIno ∧
      ∀ q ∈ [1, 2], q ≠ 1 → procfsResolve (procPath [48 + UInt8.ofNat q]) ≠ some ino :=
  have h := proc_names_exact_iff id [1, 2] (fun p => [48 + UInt8.ofNat p]) [49] (by decide +kernel) (by simp)
    (by decide) (by decide +kernel)
  ⟨((h.1.2 (.inl (by decide))).1 1).2 (by decide), h.2.2 (by decide) 1 (by decide)⟩

/-- 18446744073709551617 is 2^64 + 1, and 65538 is 2^16 + 2. -/
theorem proc_names_wrap : procfsLookup id [1, 2, 65538] (statusPath
      ([1, 8, 4, 4, 6, 7, 4, 4, 0, 7, 3, 7, 0, 9, 5, 5, 1, 6, 1, 7].map (48 + ·))) = some (.status 1) ∧
    procfsResolve (procPath [50]) = procfsResolve (procPath [54, 53, 53, 51, 56]) := by
  decide +kernel

end Noxis
