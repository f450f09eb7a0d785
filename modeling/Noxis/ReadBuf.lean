import Noxis.Files
import Noxis.FileStore
/-!
# ReadBuf — what `sys_read` stores in the caller's buffer

`readInto` is `sys_read` for every kind of descriptor, with the index of every byte it stores.  What the call meets while it
runs is its input: the keys of canonical mode, the answers of `kbd_poll` in raw mode, the pipe as it is each time the reader
is resumed, and the words of `_rand_next`.  A call that has used up its input is still waiting.  `Files.sysRead` is the part
of it that reads files.
-/
namespace Noxis

open List Option Nat
namespace Files

def int64 (n : Nat) : Int := if n % 2 ^ 64 < 2 ^ 63 then (n % 2 ^ 64 : Nat) else (n % 2 ^ 64 : Nat) - 2 ^ 64

abbrev BufStores := List (Nat × UInt8)

/-- What became of a call: it returned, or it still waits; with what it has stored. -/
inductive Outcome where
  | ret (n : Int) (stores : BufStores)
  | waits (stores : BufStores)
  deriving DecidableEq

def putFrom (got : Nat) (bs : List UInt8) : BufStores := bs.zipIdx.map fun x => (got + x.2, x.1)

/-- The loop of canonical mode; a backspace takes one byte back. -/
def readCanonical (len : Nat) : List Nat → Nat → BufStores → Outcome
  | [], got, st => if got < len then .waits st else .ret (int64 got) st
  | c :: keys, got, st =>
    if got < len then
      if c = 8 ∨ c = 0x7F then readCanonical len keys (got - 1) st
      else
        let c := if c = 13 then 10 else c
        if c = 10 then .ret (int64 (got + 1)) (st ++ [(got, UInt8.ofNat c)])
        else readCanonical len keys (got + 1) (st ++ [(got, UInt8.ofNat c)])
    else .ret (int64 got) st

/-- The loop of raw mode; `none` is a poll without a key. -/
def readRaw (len vmin : Nat) : List (Option Nat) → Nat → BufStores → Outcome
  | [], got, st => if got < len then .waits st else .ret (int64 got) st
  | poll :: polls, got, st =>
    if got < len then
      match poll with
      | none => if vmin ≤ got then .ret (int64 got) st else readRaw len vmin polls got st
      | some c =>
        if vmin ≤ got + 1 then .ret (int64 (got + 1)) (st ++ [(got, UInt8.ofNat c)])
        else readRaw len vmin polls (got + 1) (st ++ [(got, UInt8.ofNat c)])
    else .ret (int64 got) st

/-- `pipe_read` over the states the pipe is in each time it runs. -/
def readPipe (len : Nat) : List Pipe → Nat → BufStores → Outcome
  | [], _, st => .waits st
  | p :: ps, got, st =>
    let r := p.readSeg (len - got)
    if r.2.2 then .ret (int64 (got + r.2.1.length)) (st ++ putFrom got r.2.1)
    else readPipe len ps (got + r.2.1.length) (st ++ putFrom got r.2.1)

def wordStores (a : Nat) (w : UInt32) : BufStores :=
  (List.range 4).map fun j => (a + j, UInt8.ofNat (w.toNat / 256 ^ j))

/-- The loop of `/dev/random`: the index is `i & ~3u`, in 32 bits. -/
def randomStores (rand : Nat → UInt32) (len : Nat) : BufStores :=
  (List.range len).flatMap fun i => if i % 4 = 0 then wordStores (i % 2 ^ 32 / 4 * 4) (rand (i / 4)) else []

structure Input where
  canonical : Bool
  keys : List Nat
  vmin : UInt8
  polls : List (Option Nat)
  later : List Pipe
  rand : Nat → UInt32

def readCon (inp : Input) (len : Nat) : Outcome :=
  if inp.canonical then readCanonical len inp.keys 0 []
  else readRaw len (if inp.vmin = 0 then 1 else inp.vmin.toNat) inp.polls 0 []

/-- The part of `sys_read` that a `/dev/tty` descriptor is sent to with descriptor 0. -/
def readFrom (s : Files) (q : Nat × Nat) (len : Nat) (inp : Input) : Outcome :=
  match (s.fd.fds q).kind with
  | .conIn => readCon inp len
  | .file f =>
    let got := readBytes s.fs f.slot (s.fd.fds q).offset len
    .ret (int64 got.length) (putFrom 0 got)
  | .pipe .r i => readPipe len (s.fd.pipes i :: inp.later) 0 []
  | _ => .ret (-1) []

def readInto (s : Files) (p : Nat) (fd : Int) (len : Nat) (inp : Input) : Outcome :=
  match s.fd.fdGet p fd with
  | none => .ret (-1) []
  | some n =>
    match (s.fd.fds (p, n)).kind with
    | .devNull => .ret 0 []
    | .devZero => .ret (int64 len) ((List.range len).map fun i => (i, 0))
    | .devRandom => .ret (int64 len) (randomStores inp.rand len)
    | .devTty => s.readFrom (p, 0) len inp
    | _ => s.readFrom (p, n) len inp

variable {s : Files} {n len got : Nat}

theorem readInto_file {p : Nat} {fd : Int} {f : FileRef} (hn : s.target p fd 0 = some n)
    (hf : (s.fd.fds (p, n)).kind = .file f) (len : Nat) (inp : Input) :
    ∃ d, (s.sysRead p fd len).2 = .bytes d ∧ s.readInto p fd len inp = .ret (int64 d.length) (putFrom 0 d) := by
  refine ⟨readBytes s.fs f.slot (s.fd.fds (p, n)).offset len, ?_, ?_⟩
  · rw [sysRead, hn]
    dsimp only
    rw [hf]
  · obtain ⟨m, hm, hmn⟩ := map_eq_some_iff.1 hn
    rw [readInto, hm]
    dsimp only
    by_cases htty : (s.fd.fds (p, m)).kind = .devTty
    · rw [if_pos htty] at hmn
      rw [htty]
      subst hmn
      rw [readFrom, hf]
    rw [if_neg htty] at hmn
    subst hmn
    rw [hf]
    dsimp only
    rw [readFrom, hf]

/-! ## Staying in the buffer -/

/-- **The call stays in the buffer** of `len` bytes: it answers -1 or a count of at most `len`, and stores only there. -/
def InBuffer (len : Nat) : Outcome → Prop
  | .ret n st => (n = -1 ∨ (0 ≤ n ∧ n ≤ len)) ∧ ∀ x ∈ st, x.1 < len
  | .waits st => ∀ x ∈ st, x.1 < len

theorem int64_small (h : n < 2 ^ 63) : int64 n = n := by
  unfold int64
  rw [mod_eq_of_lt (by omega), if_pos h]

variable {st : BufStores}

theorem inBuffer_count (hle : got ≤ len) (hlt : got < 2 ^ 63) (hst : ∀ x ∈ st, x.1 < len) :
    InBuffer len (.ret (int64 got) st) := by
  refine ⟨.inr ?_, hst⟩
  rw [int64_small hlt]
  omega

theorem stores_snoc (b : UInt8) (hlt : got < len) (hst : ∀ x ∈ st, x.1 < len) : ∀ x ∈ st ++ [(got, b)], x.1 < len := by
  intro x hx
  rcases mem_append.1 hx with hx | hx
  · exact hst x hx
  · rw [mem_singleton.1 hx]
    exact hlt

variable {x : Nat × UInt8}

theorem mem_putFrom {bs : List UInt8} (h : x ∈ putFrom got bs) : x.1 < got + bs.length := by
  obtain ⟨y, hy, rfl⟩ := mem_map.1 h
  have := mem_zipIdx hy
  dsimp only
  omega

theorem readCanonical_in (len : Nat) : ∀ (keys : List Nat) (got : Nat) (st : BufStores), got ≤ len →
    got + keys.length < 2 ^ 63 → (∀ x ∈ st, x.1 < len) → InBuffer len (readCanonical len keys got st)
  | [], got, st, hle, hlt, hst => by
    unfold readCanonical
    split
    · exact hst
    · exact inBuffer_count hle hlt hst
  | c :: keys, got, st, hle, hlt, hst => by
    rw [length_cons] at hlt
    unfold readCanonical
    split
    · rename_i hroom
      split
      · exact readCanonical_in len keys (got - 1) st (by omega) (by omega) hst
      dsimp only
      generalize (if c = 13 then 10 else c) = c'
      split
      · exact inBuffer_count hroom (by omega) (stores_snoc _ hroom hst)
      · exact readCanonical_in len keys (got + 1) _ hroom (by omega) (stores_snoc _ hroom hst)
    · exact inBuffer_count hle (by omega) hst

theorem readRaw_in (len vmin : Nat) : ∀ (polls : List (Option Nat)) (got : Nat) (st : BufStores), got ≤ len →
    got + polls.length < 2 ^ 63 → (∀ x ∈ st, x.1 < len) → InBuffer len (readRaw len vmin polls got st)
  | [], got, st, hle, hlt, hst => by
    unfold readRaw
    split
    · exact hst
    · exact inBuffer_count hle hlt hst
  | poll :: polls, got, st, hle, hlt, hst => by
    rw [length_cons] at hlt
    unfold readRaw
    split
    · rename_i hroom
      cases poll with
      | none =>
        dsimp only
        split
        · exact inBuffer_count hle (by omega) hst
        · exact readRaw_in len vmin polls got st hle (by omega) hst
      | some c =>
        dsimp only
        split
        · exact inBuffer_count hroom (by omega) (stores_snoc _ hroom hst)
        · exact readRaw_in len vmin polls (got + 1) _ hroom (by omega) (stores_snoc _ hroom hst)
    · exact inBuffer_count hle (by omega) hst

theorem readSeg_length : ∀ (left : Nat) (p : Pipe), (p.readSeg left).2.1.length ≤ left ∧ (p.readSeg left).2.1.length ≤ p.count
  | 0, p => ⟨le_refl _, zero_le _⟩
  | left + 1, p => by
    unfold Pipe.readSeg
    split
    · exact ⟨zero_le _, zero_le _⟩
    have ih := readSeg_length left { p with toRing := p.pop pipeCap }
    have hc : ({ p with toRing := p.pop pipeCap } : Pipe).count = p.count - 1 := rfl
    rw [hc] at ih
    dsimp only at ih ⊢
    rw [length_cons]
    omega

theorem readPipe_in (len : Nat) : ∀ (ps : List Pipe) (got : Nat) (st : BufStores), got ≤ len →
    got + (ps.map fun p => p.count).sum < 2 ^ 63 → (∀ x ∈ st, x.1 < len) → InBuffer len (readPipe len ps got st)
  | [], _, _, _, _, hst => hst
  | p :: ps, got, st, hle, hlt, hst => by
    rw [map_cons, sum_cons] at hlt
    have hseg := readSeg_length (len - got) p
    have hst' : ∀ x ∈ st ++ putFrom got (p.readSeg (len - got)).2.1, x.1 < len := by
      intro x hx
      rcases mem_append.1 hx with hx | hx
      · exact hst x hx
      · have := mem_putFrom hx
        omega
    unfold readPipe
    dsimp only
    split
    · exact inBuffer_count (by omega) (by omega) hst'
    · exact readPipe_in len ps _ _ (by omega) (by omega) hst'

/-! ## The devices -/

theorem int64_len_iff (h : len < 2 ^ 64) :
    (int64 len = -1 ∨ (0 ≤ int64 len ∧ int64 len ≤ len)) ↔ (len < 2 ^ 63 ∨ len = 2 ^ 64 - 1) := by
  unfold int64
  rw [mod_eq_of_lt h]
  split <;> omega

theorem mem_randomStores {rand : Nat → UInt32} :
    x ∈ randomStores rand len ↔ ∃ i < len, i % 4 = 0 ∧ x ∈ wordStores (i % 2 ^ 32 / 4 * 4) (rand (i / 4)) := by
  unfold randomStores
  rw [mem_flatMap]
  constructor
  · rintro ⟨i, hi, hx⟩
    split at hx
    · exact ⟨i, mem_range.1 hi, ‹_›, hx⟩
    · cases hx
  · rintro ⟨i, hi, h4, hx⟩
    exact ⟨i, mem_range.2 hi, by rw [if_pos h4]; exact hx⟩

theorem mem_wordStores {a : Nat} {w : UInt32} (h : x ∈ wordStores a w) : x.1 < a + 4 := by
  obtain ⟨j, hj, rfl⟩ := mem_map.1 h
  have := mem_range.1 hj
  dsimp only
  omega

/-- **`/dev/random` stores whole words**: the last one leaves a buffer that is no multiple of four bytes, unless its index has
wrapped around. -/
theorem randomStores_iff (rand : Nat → UInt32) (len : Nat) :
    (∀ x ∈ randomStores rand len, x.1 < len) ↔ (len % 4 = 0 ∨ 2 ^ 32 ≤ len) := by
  constructor
  · intro h
    by_contra hno
    have hlast := h (len / 4 * 4 % 2 ^ 32 / 4 * 4 + 3, UInt8.ofNat ((rand (len / 4 * 4 / 4)).toNat / 256 ^ 3))
      (mem_randomStores.2 ⟨len / 4 * 4, by omega, by omega, mem_map.2 ⟨3, by decide, rfl⟩⟩)
    dsimp only at hlast
    omega
  · intro h x hx
    obtain ⟨i, hi, h4, hw⟩ := mem_randomStores.1 hx
    have := mem_wordStores hw
    omega

/-! ## All descriptors -/

/-- The input of one call has fewer than 2⁶³ keys, polls and bytes, and files are smaller than 2³² bytes. -/
structure Short (s : Files) (inp : Input) : Prop where
  keys : inp.keys.length < 2 ^ 63
  polls : inp.polls.length < 2 ^ 63
  pipes : ∀ i, ((s.fd.pipes i :: inp.later).map fun p => p.count).sum < 2 ^ 63
  sizes : ∀ k, (s.fs.files k).size < 2 ^ 32

theorem readBytes_length (fs : Fs) (k offset len : Nat) : (readBytes fs k offset len).length = min len ((fs.files k).size - offset) := by
  rw [readBytes, length_map, length_range]

theorem readFrom_in {inp : Input} (h : s.Short inp) (q : Nat × Nat) (len : Nat) : InBuffer len (s.readFrom q len inp) := by
  have hnil : ∀ x ∈ ([] : BufStores), x.1 < len := fun x hx => absurd hx not_mem_nil
  unfold readFrom
  cases (s.fd.fds q).kind with
  | conIn =>
    dsimp only
    unfold readCon
    split
    · exact readCanonical_in len inp.keys 0 [] (zero_le _) (by have := h.keys; omega) hnil
    · exact readRaw_in len _ inp.polls 0 [] (zero_le _) (by have := h.polls; omega) hnil
  | file f =>
    have hsize := h.sizes f.slot
    have hlen := readBytes_length s.fs f.slot (s.fd.fds q).offset len
    refine inBuffer_count (by omega) (by omega) (fun x hx => ?_)
    have := mem_putFrom hx
    omega
  | pipe e i =>
    cases e with
    | r => exact readPipe_in len _ 0 [] (zero_le _) (by have := h.pipes i; omega) hnil
    | w => exact ⟨.inl rfl, hnil⟩
  | closed => exact ⟨.inl rfl, hnil⟩
  | conOut => exact ⟨.inl rfl, hnil⟩
  | devNull => exact ⟨.inl rfl, hnil⟩
  | devZero => exact ⟨.inl rfl, hnil⟩
  | devRandom => exact ⟨.inl rfl, hnil⟩
  | devTty => exact ⟨.inl rfl, hnil⟩

def LenOk (len : Nat) (k : FdKind) : Prop :=
  (k = .devRandom → len % 4 = 0 ∨ 2 ^ 32 ≤ len) ∧
    (k = .devRandom ∨ k = .devZero → len < 2 ^ 63 ∨ len = 2 ^ 64 - 1)

/-- **`sys_read` stays in the caller's buffer exactly when** `/dev/random` is read in whole words and neither it nor
`/dev/zero` is asked for more bytes than an `int64_t` counts.  For every descriptor, length and input. -/
theorem read_in_buffer_iff (s : Files) (p : Nat) (fd : Int) (len : Nat) (inp : Input) (hlen : len < 2 ^ 64) (hs : s.Short inp) :
    InBuffer len (s.readInto p fd len inp) ↔ ∀ n, s.fd.fdGet p fd = some n → LenOk len (s.fd.fds (p, n)).kind := by
  unfold readInto
  cases hn : s.fd.fdGet p fd with
  | none => exact ⟨fun _ n hx => (by cases hx), fun _ => ⟨.inl rfl, fun x hx => absurd hx not_mem_nil⟩⟩
  | some n =>
    have hone : (∀ m, some n = some m → LenOk len (s.fd.fds (p, m)).kind) ↔ LenOk len (s.fd.fds (p, n)).kind :=
      ⟨fun h => h n rfl, fun h m hm => some.inj hm ▸ h⟩
    rw [hone]
    dsimp only
    have hrest := readFrom_in hs (p, n) len
    cases (s.fd.fds (p, n)).kind with
    | devNull => exact ⟨fun _ => ⟨nofun, nofun⟩, fun _ => ⟨.inr ⟨Int.le_refl 0, Int.natCast_nonneg len⟩, fun x hx => absurd hx not_mem_nil⟩⟩
    | devZero =>
      have hst : ∀ x ∈ ((List.range len).map fun i => (i, (0 : UInt8))), x.1 < len := by
        intro x hx
        obtain ⟨i, hi, rfl⟩ := mem_map.1 hx
        exact mem_range.1 hi
      exact ⟨fun h => ⟨nofun, fun _ => (int64_len_iff hlen).1 h.1⟩, fun h => ⟨(int64_len_iff hlen).2 (h.2 (.inr rfl)), hst⟩⟩
    | devRandom =>
      exact ⟨fun h => ⟨fun _ => (randomStores_iff _ len).1 h.2, fun _ => (int64_len_iff hlen).1 h.1⟩,
        fun h => ⟨(int64_len_iff hlen).2 (h.2 (.inl rfl)), (randomStores_iff _ len).2 (h.1 rfl)⟩⟩
    | devTty => exact ⟨fun _ => ⟨nofun, nofun⟩, fun _ => readFrom_in hs (p, 0) len⟩
    | closed => exact ⟨fun _ => ⟨nofun, nofun⟩, fun _ => hrest⟩
    | conIn => exact ⟨fun _ => ⟨nofun, nofun⟩, fun _ => hrest⟩
    | conOut => exact ⟨fun _ => ⟨nofun, nofun⟩, fun _ => hrest⟩
    | file f => exact ⟨fun _ => ⟨nofun, nofun⟩, fun _ => hrest⟩
    | pipe e i => exact ⟨fun _ => ⟨nofun, nofun⟩, fun _ => hrest⟩

def randomOpen : Files where
  fd := FdSys.boot.setFd 1 3 ⟨.devRandom, 0⟩
  fs := ⟨blankVol, fun _ => ⟨fun _ => 0, 0, 0, 0, 0⟩, 0, fun _ => ⟨0, fun _ => 0⟩, 9⟩
  cwdIno _ := 0
  poolNext := 0

def typed : Input := ⟨true, [97, 98, 8, 99, 13], 0, [], [], fun _ => 0x01020304⟩

theorem randomOpen_short : randomOpen.Short typed :=
  ⟨by decide, by decide, fun _ => show 0 + 0 < 2 ^ 63 by decide, fun _ => show 0 < 2 ^ 32 by decide⟩

theorem read_in_buffer_iff_typed : InBuffer 80 (randomOpen.readInto 1 0 80 typed) ↔
    ∀ n, randomOpen.fd.fdGet 1 0 = some n → LenOk 80 (randomOpen.fd.fds (1, n)).kind :=
  read_in_buffer_iff randomOpen 1 0 80 typed (by decide) randomOpen_short

example : randomOpen.readInto 1 0 80 typed = .ret 3 [(0, 97), (1, 98), (1, 99), (2, 10)] := by decide

/-- Five bytes of `/dev/random` are stored as eight. -/
theorem read_random_overruns : randomOpen.readInto 1 3 5 typed =
    .ret 5 [(0, 4), (1, 3), (2, 2), (3, 1), (4, 4), (5, 3), (6, 2), (7, 1)] ∧
      ¬ InBuffer 5 (randomOpen.readInto 1 3 5 typed) := by
  have hread : randomOpen.readInto 1 3 5 typed = .ret 5 [(0, 4), (1, 3), (2, 2), (3, 1), (4, 4), (5, 3), (6, 2), (7, 1)] := by
    decide
  refine ⟨hread, fun h => ?_⟩
  rw [hread] at h
  exact absurd (h.2 (7, 1) (by decide)) (by decide)

end Files
end Noxis
