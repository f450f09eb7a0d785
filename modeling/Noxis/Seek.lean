import Noxis.Files
import Noxis.FileStore
/-!
# Seek — the position `sys_lseek` answers and the one that is used next

`sys_lseek` computes the position as an `int64_t` and keeps it in the descriptor's offset, a `uint32_t`, which the next
`sys_read` or `sys_write` starts at.
-/
namespace Noxis

open Option Function
namespace Files

/-- The next `sys_read` and the next `sys_write` of `p` on `fd`, which refers to `f`, start at byte `pos` of the file. -/
structure StartsAt (s : Files) (p : Nat) (fd : Int) (f : FileRef) (pos : Nat) : Prop where
  read : ∀ len, (s.sysRead p fd len).2 = .bytes (readBytes s.fs f.slot pos len)
  write : ∀ h data, (s.sysWrite h p fd data).1.fs = (s.fs.write h f.slot pos (data.take (data.length % 2 ^ 32))).1

theorem target_of_file {s : Files} {p n : Nat} {fd : Int} {f : FileRef} (hn : s.fd.fdGet p fd = some n)
    (hf : (s.fd.fds (p, n)).kind = .file f) (tty : Nat) : s.target p fd tty = some n := by
  rw [target, hn, map_some, hf]
  rfl

/-- **Reads and writes start at the offset of the descriptor.** -/
theorem startsAt_offset {s : Files} {p n : Nat} {fd : Int} {f : FileRef} (hn : s.fd.fdGet p fd = some n)
    (hf : (s.fd.fds (p, n)).kind = .file f) : s.StartsAt p fd f (s.fd.fds (p, n)).offset := by
  constructor
  · intro len
    rw [sysRead, target_of_file hn hf]
    dsimp only
    rw [hf]
  · intro h data
    rw [sysWrite, target_of_file hn hf]
    dsimp only
    rw [hf]
    dsimp only
    split
    · rfl
    · split <;> rfl

/-- **The answer of `sys_lseek` is the position used next**: a position is the sum without wrap-around and the next read or
write starts there; a failure changes nothing. -/
structure SeekUsed (s : Files) (p : Nat) (fd off whence : Int) : Prop where
  position : 0 ≤ (s.sysLseek p fd off whence).2 → ∃ n f, s.fd.fdGet p fd = some n ∧ (s.fd.fds (p, n)).kind = .file f ∧
    (s.sysLseek p fd off whence).2 = s.seekBase p n f whence + off ∧
    (((s.sysLseek p fd off whence).1.fd.fds (p, n)).offset : Int) = (s.sysLseek p fd off whence).2 ∧
    (s.sysLseek p fd off whence).1.StartsAt p fd f (s.sysLseek p fd off whence).2.toNat
  failed : (s.sysLseek p fd off whence).2 = -1 → (s.sysLseek p fd off whence).1 = s

section Seeking

variable {s : Files} {p : Nat} {fd off whence : Int}

theorem sysLseek_no_file (h : ∀ n f, s.fd.fdGet p fd = some n → (s.fd.fds (p, n)).kind ≠ .file f) :
    s.sysLseek p fd off whence = (s, -1) := by
  unfold sysLseek
  cases hn : s.fd.fdGet p fd with
  | none => rfl
  | some n =>
    dsimp only
    split
    · rename_i f hf
      exact absurd hf (h n f hn)
    · rfl

theorem sysLseek_file {n : Nat} {f : FileRef} (hn : s.fd.fdGet p fd = some n) (hf : (s.fd.fds (p, n)).kind = .file f) :
    let r := s.seekBase p n f whence + off
    s.sysLseek p fd off whence =
      if r.bmod (2 ^ 64) < 0 then (s, -1) else ({ s with fd := s.fd.setFd p n ⟨.file f,
      (r.bmod (2 ^ 64)).toNat % 2 ^ 32⟩ }, r.bmod (2 ^ 64)) := by
  rw [sysLseek, hn]
  dsimp only
  rw [hf]

theorem seek_same_file {n : Nat} (f : FileRef) (hn : s.fd.fdGet p fd = some n) (o : Nat) :
    (s.fd.setFd p n ⟨.file f, o⟩).fdGet p fd = some n ∧ (s.fd.setFd p n ⟨.file f, o⟩).fds (p, n) = ⟨.file f, o⟩ := by
  have hset : (s.fd.setFd p n ⟨.file f, o⟩).fds (p, n) = ⟨.file f, o⟩ := update_self ..
  refine ⟨?_, hset⟩
  unfold FdSys.fdGet at hn ⊢
  by_cases hr : fd < 0 ∨ (procMaxFds : Int) ≤ fd
  · rw [if_pos hr] at hn
    cases hn
  rw [if_neg hr] at hn ⊢
  by_cases hc : (s.fd.fds (p, fd.toNat)).kind = .closed
  · rw [if_pos hc] at hn
    cases hn
  · rw [if_neg hc] at hn
    rw [some.inj hn, hset, if_neg nofun]

/-- **A file is sought** to a sum that is no negative `int64_t`; its low 32 bits are kept. -/
theorem sysLseek_cases {n : Nat} {f : FileRef} (hn : s.fd.fdGet p fd = some n) (hf : (s.fd.fds (p, n)).kind = .file f)
    (hoff : -2 ^ 63 ≤ off ∧ off < 2 ^ 63) (hbase : 0 ≤ s.seekBase p n f whence ∧ s.seekBase p n f whence < 2 ^ 32) :
    ((s.seekBase p n f whence + off < 0 ∨ 2 ^ 63 ≤ s.seekBase p n f whence + off) ∧ s.sysLseek p fd off whence = (s, -1)) ∨
      ((0 ≤ s.seekBase p n f whence + off ∧ s.seekBase p n f whence + off < 2 ^ 63) ∧ s.sysLseek p fd off whence =
          ({ s with fd := s.fd.setFd p n ⟨.file f, (s.seekBase p n f whence + off).toNat % 2 ^ 32⟩ },
            s.seekBase p n f whence + off)) := by
  rw [sysLseek_file hn hf]
  generalize s.seekBase p n f whence = base at *
  by_cases hneg : base + off < 0 ∨ 2 ^ 63 ≤ base + off
  · refine .inl ⟨hneg, if_pos ?_⟩
    rw [Int.bmod_def]
    split <;> omega
  · have hb : (base + off).bmod (2 ^ 64) = base + off := by
      rw [Int.bmod_def]
      split <;> omega
    exact .inr ⟨by omega, by rw [hb, if_neg (by omega)]⟩

end Seeking

/-- **The answer of `sys_lseek` is the position used next exactly when it fits the 32-bit offset of the descriptor**, or the
sum is too large even for 64 bits, which fails.  Offsets and sizes are the 32-bit numbers of the source. -/
theorem seek_used_iff (s : Files) (p : Nat) (fd off whence : Int) (hoff : -2 ^ 63 ≤ off ∧ off < 2 ^ 63)
    (ho : ∀ x, (s.fd.fds x).offset < 2 ^ 32) (hs : ∀ k, (s.fs.files k).size < 2 ^ 32) :
    s.SeekUsed p fd off whence ↔ ∀ n f, s.fd.fdGet p fd = some n → (s.fd.fds (p, n)).kind = .file f →
      s.seekBase p n f whence + off < 2 ^ 32 ∨ 2 ^ 63 ≤ s.seekBase p n f whence + off := by
  by_cases hfile : ∃ n f, s.fd.fdGet p fd = some n ∧ (s.fd.fds (p, n)).kind = .file f
  · obtain ⟨n, f, hn, hf⟩ := hfile
    have hbase : 0 ≤ s.seekBase p n f whence ∧ s.seekBase p n f whence < 2 ^ 32 := by
      have := ho (p, n)
      have := hs f.slot
      unfold seekBase
      split
      · omega
      · split <;> omega
    have hsame : ∀ n' f', s.fd.fdGet p fd = some n' → (s.fd.fds (p, n')).kind = .file f' → n = n' ∧ f = f' := by
      intro n' f' hn' hf'
      obtain rfl : n = n' := some.inj (hn.symm.trans hn')
      rw [hf] at hf'
      cases hf'
      exact ⟨rfl, rfl⟩
    rcases sysLseek_cases hn hf hoff hbase with ⟨hsum, heq⟩ | ⟨hsum, heq⟩
    · refine ⟨fun _ n' f' hn' hf' => ?_, fun _ => ⟨fun h => ?_, fun _ => by rw [heq]⟩⟩
      · obtain ⟨rfl, rfl⟩ := hsame n' f' hn' hf'
        omega
      · rw [heq] at h
        exact absurd h (show ¬ (0 : Int) ≤ -1 by decide)
    · constructor
      · intro h n' f' hn' hf'
        obtain ⟨rfl, rfl⟩ := hsame n' f' hn' hf'
        obtain ⟨n', f', hn', hf', -, hpos, -⟩ := h.position (by rw [heq]; exact hsum.1)
        obtain ⟨rfl, rfl⟩ := hsame n' f' hn' hf'
        rw [heq] at hpos
        dsimp only at hpos
        rw [(seek_same_file f hn _).2] at hpos
        dsimp only at hpos
        omega
      · intro h
        have hlt := (h n f hn hf).resolve_right (by omega)
        refine ⟨fun _ => ⟨n, f, hn, hf, ?_⟩, fun hx => ?_⟩
        · rw [heq]
          dsimp only
          obtain ⟨hget, hset⟩ := seek_same_file f hn ((s.seekBase p n f whence + off).toNat % 2 ^ 32)
          rw [Nat.mod_eq_of_lt (by omega)] at hget hset ⊢
          refine ⟨rfl, by rw [hset]; dsimp only; omega, ?_⟩
          have hstart := startsAt_offset (s := { s with fd := s.fd.setFd p n ⟨.file f, (s.seekBase p n f whence + off).toNat⟩ })
            hget (by rw [hset])
          rw [hset] at hstart
          exact hstart
        · rw [heq] at hx
          dsimp only at hx
          omega
  · have hno : ∀ n f, s.fd.fdGet p fd = some n → (s.fd.fds (p, n)).kind ≠ .file f :=
      fun n f hn hf => hfile ⟨n, f, hn, hf⟩
    refine ⟨fun _ n f hn hf => absurd hf (hno n f hn), fun _ => ⟨fun h => ?_, fun _ => by rw [sysLseek_no_file hno]⟩⟩
    rw [sysLseek_no_file hno] at h
    exact absurd h (show ¬ (0 : Int) ≤ -1 by decide)

def fiveBytes : Files where
  fd := ⟨{1}, 2, update (fun _ => .closed) (1, 3) ⟨.file (.nox 0), 0⟩, FdSys.boot.pipes⟩
  fs := ⟨blankVol, fun _ => ⟨fun _ => 0, 0, 5, 0, 512⟩, 1, fun _ => ⟨512, fun x => UInt8.ofNat x⟩, 1⟩
  cwdIno _ := 0
  poolNext := 0

theorem seek_used_iff_five : fiveBytes.SeekUsed 1 3 (-2) 2 ↔
    ∀ n f, fiveBytes.fd.fdGet 1 3 = some n → (fiveBytes.fd.fds (1, n)).kind = .file f →
      fiveBytes.seekBase 1 n f 2 + -2 < 2 ^ 32 ∨ 2 ^ 63 ≤ fiveBytes.seekBase 1 n f 2 + -2 := by
  refine seek_used_iff fiveBytes 1 3 (-2) 2 (by decide) (fun x => ?_) (fun _ => show 5 < 2 ^ 32 by decide)
  by_cases hx : x = (1, 3)
  · rw [hx]
    decide
  · have hcl : fiveBytes.fd.fds x = .closed := Function.update_of_ne hx _ (fun _ => Fd.closed)
    rw [hcl]
    decide

/-- A seek to byte 2³² answers 2³², and the next read gives the first byte of the file. -/
theorem seek_past_offset : (fiveBytes.sysLseek 1 3 (2 ^ 32) 0).2 = 2 ^ 32 ∧
    ((fiveBytes.sysLseek 1 3 (2 ^ 32) 0).1.sysRead 1 3 1).2 = .bytes [0] ∧ ¬ fiveBytes.SeekUsed 1 3 (2 ^ 32) 0 := by
  set r := fiveBytes.sysLseek 1 3 (2 ^ 32) 0
  have hret : r.2 = 2 ^ 32 := by decide
  have hread : (r.1.sysRead 1 3 1).2 = .bytes [0] := by decide
  refine ⟨hret, hread, fun h => ?_⟩
  obtain ⟨n, f, -, hf, -, -, hstart⟩ := h.position (by rw [hret]; decide)
  have hbytes := hstart.read 1
  rw [hread, hret, readBytes] at hbytes
  have hsize : (r.1.fs.files f.slot).size = 5 := rfl
  rw [hsize, show min 1 (5 - ((2 : Int) ^ 32).toNat) = 0 by decide] at hbytes
  cases hbytes

end Files
end Noxis
