import Mathlib
/-!
# Cursor — reading a list in pieces

A reader is called with an offset and answers a number of bytes, the records it stored and the next offset.  `Reads` says that
the reader goes through a list of records of `size` bytes each: from the record `m` it answers as many as there is room for,
or fails and stays where it is.  Whatever room the calls give, the answers up to the first 0 put together are the list
(`Reads.listed`).
-/
namespace Noxis

open List
namespace Cursor

variable {α κ : Type}

structure Answer (α : Type) where
  ret : Int
  records : List α
  off : Nat
  deriving DecidableEq, Repr

/-- The calls one after the other from an offset, up to the first that answers 0: the records of all of them, and whether there
was one that answered 0. -/
def readUntil (read : κ → Nat → Answer α) : List κ → Nat → List α × Bool
  | [], _ => ([], false)
  | c :: cs, off =>
    if (read c off).ret = 0 then ((read c off).records, true)
    else ((read c off).records ++ (readUntil read cs (read c off).off).1, (readUntil read cs (read c off).off).2)

def piece (es : List α) (size m room : Nat) : Answer α :=
  ⟨(size * ((es.drop m).take room).length : Nat), (es.drop m).take room, size * (m + ((es.drop m).take room).length)⟩

/-- The reader goes through `es`; a call that is not `ok` may also fail. -/
structure Reads (read : κ → Nat → Answer α) (es : List α) (size : Nat) (ok : κ → Prop) (room : κ → Nat) : Prop where
  pos : 0 < size
  roomy : ∀ c, 1 ≤ room c
  answers : ∀ c m, m ≤ es.length → read c (size * m) = piece es size m (room c) ∨ (¬ ok c ∧ read c (size * m) = ⟨-1, [], size * m⟩)

/-- What the calls of a list found: some of the records from the start on, all of them if a call answered 0, and one does when
enough of them succeed. -/
structure Listed (read : κ → Nat → Answer α) (es : List α) (ok : κ → Prop) (calls : List κ) : Prop where
  part : ∃ k, (readUntil read calls 0).1 = es.take k
  all : (readUntil read calls 0).2 = true → (readUntil read calls 0).1 = es
  ends : (∀ c ∈ calls, ok c) → es.length < calls.length → (readUntil read calls 0).2 = true

section Reads

variable {read : κ → Nat → Answer α} {es : List α} {size : Nat} {ok : κ → Prop} {room : κ → Nat}

theorem piece_nil {m r : Nat} (hm : es.length ≤ m) : piece es size m r = ⟨0, [], size * m⟩ := by
  unfold piece
  rw [drop_eq_nil_iff.mpr hm, take_nil]
  simp

theorem piece_ret {m r : Nat} (hs : 0 < size) (hr : 1 ≤ r) (hm : m < es.length) : (piece es size m r).ret ≠ 0 := by
  have hlen : 0 < ((es.drop m).take r).length := by
    rw [length_take, length_drop]
    omega
  unfold piece
  have hpos := Nat.mul_pos hs hlen
  dsimp only
  omega

theorem piece_append (es : List α) (m r : Nat) :
    (es.drop m).take r ++ es.drop (m + ((es.drop m).take r).length) = es.drop m := by
  obtain ⟨t, ht⟩ := take_prefix r (es.drop m)
  generalize (es.drop m).take r = got at *
  rw [← drop_drop, ← ht, drop_left]

theorem Reads.onward (h : Reads read es size ok room) : ∀ (calls : List κ) (m : Nat), m ≤ es.length →
    let r := readUntil read calls (size * m)
    (∃ k, r.1 = (es.drop m).take k) ∧ (r.2 = true → r.1 = es.drop m) ∧
    ((∀ c ∈ calls, ok c) → es.length - m < calls.length → r.2 = true)
  | [], m, _ => ⟨⟨0, rfl⟩, fun hc => (by cases hc), fun _ hc => absurd hc (Nat.not_lt_zero _)⟩
  | c :: calls, m, hm => by
    rw [readUntil]
    rcases h.answers c m hm with heq | ⟨hbad, heq⟩
    · rw [heq]
      rcases Nat.lt_or_ge m es.length with hlt | hge
      · -- some records, and the rest from there on
        have hlen : ((es.drop m).take (room c)).length = min (room c) (es.length - m) := by
          rw [length_take, length_drop]
        have hroom := h.roomy c
        have hsplit := piece_append es m (room c)
        obtain ⟨⟨k, h1⟩, h2, h3⟩ := Reads.onward h calls (m + ((es.drop m).take (room c)).length) (by omega)
        rw [if_neg (piece_ret h.pos hroom hlt), piece]
        dsimp only
        generalize (es.drop m).take (room c) = got at *
        refine ⟨⟨got.length + k, ?_⟩, fun hend => ?_, fun hok hcalls => ?_⟩
        · rw [h1, ← hsplit, take_length_add_append]
        · rw [h2 hend, hsplit]
        · refine h3 (fun d hd => hok d (mem_cons_of_mem c hd)) ?_
          rw [length_cons] at hcalls
          omega
      · rw [piece_nil hge, if_pos rfl, drop_eq_nil_iff.mpr hge]
        exact ⟨⟨0, rfl⟩, fun _ => rfl, fun _ _ => rfl⟩
    · obtain ⟨⟨k, h1⟩, h2, h3⟩ := Reads.onward h calls m hm
      rw [heq, if_neg (by decide : ¬ (-1 : Int) = 0)]
      exact ⟨⟨k, h1⟩, h2, fun hok => absurd (hok c mem_cons_self) hbad⟩

/-- **The listing does not depend on the room of the calls.** -/
theorem Reads.listed (h : Reads read es size ok room) (calls : List κ) : Listed read es ok calls := by
  obtain ⟨h1, h2, h3⟩ := h.onward calls 0 (Nat.zero_le _)
  rw [mul_zero] at h1 h2 h3
  rw [drop_zero] at h1 h2
  exact ⟨h1, h2, h3⟩

end Reads
end Cursor
end Noxis
