import Noxis.Nsh
/-!
# NshParse — the words of a simple command (`parse`)

`parse` walks once over the line, overwrites the spaces it passes by NUL bytes and keeps pointers to the words.  The line lies in a
memory that goes on after it.  A pointer that has been kept names a string behind the place the walk has reached (`Done`), and every
store is at that place or after it and before the end of the line; so what the pointers name at the end is what they named when
they were kept.
-/
namespace Noxis

open List Option Bool Function
namespace Nsh

/-! ## The code -/

abbrev Mem := Nat → Char

/-- `while (*p == ' ') *p++ = 0;` -/
def blankOut : Nat → Mem → Nat → Option (Mem × Nat)
  | 0, _, _ => none
  | fuel + 1, m, p => if m p = ' ' then blankOut fuel (update m p nul) (p + 1) else some (m, p)

/-- `while (*p && *p != ' ') p++;` -/
def tokenEnd : Nat → Mem → Nat → Option Nat
  | 0, _, _ => none
  | fuel + 1, m, p => if m p ≠ nul ∧ m p ≠ ' ' then tokenEnd fuel m (p + 1) else some p

/-- The end of a word, and `if (*p) *p++ = 0;` -/
def cutToken (fuel : Nat) (m : Mem) (p : Nat) : Option (Mem × Nat) :=
  (tokenEnd fuel m p).map fun q => if m q ≠ nul then (update m q nul, q + 1) else (m, q)

/-- The word an operator takes: its start, the memory and where the walk goes on. -/
def target (fuel : Nat) (m : Mem) (p : Nat) : Option (Nat × Mem × Nat) :=
  (blankOut fuel m p).bind fun x => (cutToken fuel x.1 x.2).map fun y => (x.2, y)

/-- `strcmp(p, s) == 0` -/
def strEq (m : Mem) : Nat → Text → Bool
  | p, [] => m p == nul
  | p, c :: s => m p == c && strEq m (p + 1) s

/-- What `parse` hands back: `argv` up to its NULL, `*inf`, `*outf` and `*app`. -/
structure Parsed where
  argv : List Nat
  inf : Option Nat
  outf : Option Nat
  app : Bool

def parseLoop : Nat → Mem → Nat → Parsed → Option (Mem × Parsed)
  | 0, _, _, _ => none
  | fuel + 1, m, p, r =>
    if m p = nul ∨ 32 - 1 ≤ r.argv.length then some (m, r)
    else (blankOut fuel m p).bind fun x =>
      if x.1 x.2 = nul then some (x.1, r)
      else (cutToken fuel x.1 x.2).bind fun y =>
        if strEq y.1 x.2 ['<'] then
          (target fuel y.1 y.2).bind fun z => parseLoop fuel z.2.1 z.2.2 { r with inf := some z.1 }
        else if strEq y.1 x.2 ['>'] || strEq y.1 x.2 ['>', '>'] then
          (target fuel y.1 y.2).bind fun z =>
            parseLoop fuel z.2.1 z.2.2 { r with outf := some z.1, app := y.1 (x.2 + 1) == '>' }
        else parseLoop fuel y.1 y.2 { r with argv := r.argv ++ [x.2] }

def parse (fuel : Nat) (m : Mem) : Option (Mem × Parsed) := parseLoop fuel m 0 ⟨[], none, none, false⟩

/-! ## The reading of a line -/

def words (t : Text) : List Text := (t.splitOnP (· == ' ')).filter (· ≠ [])

inductive Redirect where
  | input
  | output (app : Bool)

def operator (t : Text) : Option Redirect :=
  if t = ['<'] then some .input
  else if t = ['>'] then some (.output false)
  else if t = ['>', '>'] then some (.output true)
  else none

structure Reading where
  args : List Text
  inf : Option Text
  outf : Option Text
  app : Bool

def Reading.redirect (r : Reading) (file : Text) : Redirect → Reading
  | .input => { r with inf := some file }
  | .output app => { r with outf := some file, app := app }

/-- **The left-to-right reading of the tokens**, an operator waiting for its target or none; after 31 arguments nothing more is
read. -/
def Reading.read : Option Redirect → List Text → Reading → Reading
  | none, [], r => r
  | some op, [], r => r.redirect [] op
  | some op, t :: ts, r => Reading.read none ts (r.redirect t op)
  | none, t :: ts, r =>
    if 31 ≤ r.args.length then r
    else
      match operator t with
      | some op => Reading.read (some op) ts r
      | none => Reading.read none ts { r with args := r.args ++ [t] }

def reading (line : Text) : Reading := Reading.read none (words line) ⟨[], none, none, false⟩

/-! ## Strings in memory -/

def CStr (m : Mem) : Nat → Text → Prop
  | p, [] => m p = nul
  | p, c :: t => m p = c ∧ c ≠ nul ∧ CStr m (p + 1) t

section Walk

variable {m m' : Mem} {p p' e a : Nat} {t w : Text}

theorem CStr.congr : ∀ {t : Text} {p : Nat}, CStr m p t → (∀ i, p ≤ i → i ≤ p + t.length → m' i = m i) → CStr m' p t
  | [], p, h, hm => (hm p (le_refl _) (Nat.le_add_right _ _)).trans h
  | c :: t, p, ⟨h1, h2, h3⟩, hm => by
    rw [length_cons] at hm
    exact ⟨(hm p (le_refl _) (by omega)).trans h1, h2, h3.congr fun i hi hi' => hm i (by omega) (by omega)⟩

theorem CStr.nul_iff (h : CStr m p t) : m p = nul ↔ t = [] := by
  cases t with
  | nil => exact ⟨fun _ => rfl, fun _ => h⟩
  | cons c t => exact ⟨fun hx => absurd (h.1.symm.trans hx) h.2.1, nofun⟩

theorem CStr.strEq_iff : ∀ {s t : Text} {p : Nat}, CStr m p t → nul ∉ s → (strEq m p s = true ↔ t = s)
  | [], t, p, h, _ => by
    rw [strEq, beq_iff_eq]
    exact h.nul_iff
  | c :: s, t, p, h, hs => by
    rw [strEq, and_eq_true, beq_iff_eq]
    cases t with
    | nil =>
      refine ⟨fun hx => absurd ?_ hs, nofun⟩
      rw [← hx.1, show m p = nul from h]
      exact mem_cons_self
    | cons d t =>
      rw [h.1, h.2.2.strEq_iff (fun hx => hs (mem_cons_of_mem _ hx)), List.cons.injEq]

/-- A string the walk has left behind: it ends before `p`, or the walk is at the end of the line. -/
def Done (m : Mem) (p e a : Nat) (t : Text) : Prop := CStr m a t ∧ (a + t.length < p ∨ p = e ∧ a + t.length = e)

/-- The walk from `p` to `p'` has stored nothing outside of the line behind `p`. -/
structure Walked (m m' : Mem) (p p' e : Nat) : Prop where
  le : p ≤ p'
  before : p' ≤ e
  same : ∀ i, ¬ (p ≤ i ∧ i < e) → m' i = m i

theorem Walked.trans {m'' : Mem} {p'' : Nat} (h : Walked m m' p p' e) (h' : Walked m' m'' p' p'' e) : Walked m m'' p p'' e where
  le := h.le.trans h'.le
  before := h'.before
  same i hi := by
    have := h.le
    exact (h'.same i (by omega)).trans (h.same i hi)

theorem Done.walked (h : Done m p e a t) (hw : Walked m m' p p' e) : Done m' p' e a t := by
  obtain ⟨hs, hb⟩ := h
  have hle := hw.le
  have hbe := hw.before
  exact ⟨hs.congr fun i hi hi' => hw.same i (by omega), by omega⟩

/-! ## The walk -/

theorem blankOut_spec : ∀ {t : Text} {m : Mem} {p : Nat}, CStr m p t → p + t.length = e →
    ∃ m' p', (∀ fuel, t.length < fuel → blankOut fuel m p = some (m', p')) ∧ CStr m' p' (t.dropWhile (· == ' ')) ∧
      p' + (t.dropWhile (· == ' ')).length = e ∧ Walked m m' p p' e
  | [], m, p, h, he => by
    refine ⟨m, p, fun fuel hf => ?_, h, he, le_refl _, by omega, fun i _ => rfl⟩
    obtain ⟨f, rfl⟩ := Nat.exists_eq_add_of_lt hf
    rw [length_nil, zero_add, blankOut, if_neg (by rw [show m p = nul from h]; decide)]
  | c :: t, m, p, ⟨h1, h2, h3⟩, he => by
    rw [length_cons] at he
    by_cases hc : c = ' '
    · have h3' : CStr (update m p nul) (p + 1) t := h3.congr fun i hi _ => update_of_ne (by omega) _ _
      obtain ⟨m', p', hrun, hs, hlen, hw⟩ := blankOut_spec h3' (by omega)
      rw [dropWhile_cons_of_pos (by simpa using hc)]
      refine ⟨m', p', fun fuel hf => ?_, hs, hlen, by have := hw.le; omega, hw.before, fun i hi => ?_⟩
      · obtain ⟨f, rfl⟩ := Nat.exists_eq_add_of_lt hf
        rw [blankOut, if_pos (h1.trans hc)]
        exact hrun _ (by rw [length_cons]; omega)
      · rw [hw.same i (by omega), update_of_ne (by omega)]
    · rw [dropWhile_cons_of_neg (by simpa using hc)]
      refine ⟨m, p, fun fuel hf => ?_, ⟨h1, h2, h3⟩, he, le_refl _, by omega, fun i _ => rfl⟩
      obtain ⟨f, rfl⟩ := Nat.exists_eq_add_of_lt hf
      rw [blankOut, if_neg (fun hx => hc (h1.symm.trans hx))]

theorem tokenEnd_spec : ∀ {t : Text} {p fuel : Nat}, CStr m p t → t.length < fuel →
    tokenEnd fuel m p = some (p + (t.takeWhile (· != ' ')).length) ∧
    CStr m (p + (t.takeWhile (· != ' ')).length) (t.dropWhile (· != ' '))
  | [], p, fuel + 1, h, _ => ⟨by rw [tokenEnd, if_neg (fun hx => hx.1 h)]; rfl, h⟩
  | c :: t, p, fuel + 1, ⟨h1, h2, h3⟩, hf => by
    by_cases hc : c = ' '
    · rw [takeWhile_cons_of_neg (by simpa using hc), dropWhile_cons_of_neg (by simpa using hc), tokenEnd,
        if_neg (fun hx => hx.2 (h1.trans hc))]
      exact ⟨rfl, h1, h2, h3⟩
    rw [length_cons] at hf
    obtain ⟨ih1, ih2⟩ := tokenEnd_spec h3 (show t.length < fuel by omega)
    rw [takeWhile_cons_of_pos (by simpa using hc), dropWhile_cons_of_pos (by simpa using hc), tokenEnd,
      if_pos ⟨fun hx => h2 (h1.symm.trans hx), fun hx => hc (h1.symm.trans hx)⟩, length_cons,
      show p + ((t.takeWhile (· != ' ')).length + 1) = p + 1 + (t.takeWhile (· != ' ')).length by omega]
    exact ⟨ih1, ih2⟩

theorem CStr.cut : ∀ {w u : Text} {p : Nat}, CStr m p (w ++ u) → CStr (update m (p + w.length) nul) p w
  | [], _, p, _ => update_self _ _ _
  | c :: w, u, p, ⟨h1, h2, h3⟩ => by
    have ih := h3.cut
    rw [length_cons, show p + (w.length + 1) = p + 1 + w.length by omega]
    exact ⟨by rw [update_of_ne (by omega), h1], h2, ih⟩

/-- **A word is cut off**: what is left behind is a string. -/
theorem cutToken_spec (h : CStr m p t) (he : p + t.length = e) : ∃ m' p', (∀ fuel, t.length < fuel → cutToken fuel m p = some (m', p')) ∧
    CStr m' p' (t.dropWhile (· != ' ')).tail ∧ p' + (t.dropWhile (· != ' ')).tail.length = e ∧ Walked m m' p p' e ∧
    Done m' p' e p (t.takeWhile (· != ' ')) := by
  have hrun : ∀ fuel, t.length < fuel → tokenEnd fuel m p = some (p + (t.takeWhile (· != ' ')).length) :=
    fun fuel hf => (tokenEnd_spec h hf).1
  have hend := (tokenEnd_spec h (Nat.lt_succ_self _)).2
  have hsplit : t.takeWhile (· != ' ') ++ t.dropWhile (· != ' ') = t := takeWhile_append_dropWhile
  have hlen : (t.takeWhile (· != ' ')).length + (t.dropWhile (· != ' ')).length = t.length := by
    rw [← length_append, hsplit]
  generalize t.takeWhile (· != ' ') = w at *
  cases hu : t.dropWhile (· != ' ') with
  | nil =>
    -- the line ends here
    rw [hu] at hend hsplit hlen
    rw [append_nil] at hsplit
    subst hsplit
    refine ⟨m, p + w.length, fun fuel hf => ?_, hend, he, ⟨by omega, by omega, fun _ _ => rfl⟩, h, .inr ⟨he, he⟩⟩
    rw [cutToken, hrun fuel hf, map_some, if_neg (fun hx => hx hend)]
  | cons c u =>
    rw [hu] at hend hsplit hlen
    obtain ⟨h1, h2, h3⟩ := hend
    rw [length_cons] at hlen
    refine ⟨update m (p + w.length) nul, p + w.length + 1, fun fuel hf => ?_, h3.congr fun i hi _ => update_of_ne (by omega) _ _,
      by rw [tail_cons]; omega, ⟨by omega, by omega, fun i hi => update_of_ne (by omega) _ _⟩, ?_, .inl (by omega)⟩
    · rw [cutToken, hrun fuel hf, map_some, if_pos (fun hx => h2 (h1.symm.trans hx))]
    · rw [← hsplit] at h
      exact h.cut

def next (t : Text) : Text := (t.dropWhile (· == ' ')).takeWhile (· != ' ')
def after (t : Text) : Text := ((t.dropWhile (· == ' ')).dropWhile (· != ' ')).tail

theorem length_dropWhile_le (q : Char → Bool) (t : Text) : (t.dropWhile q).length ≤ t.length := (dropWhile_suffix q).length_le

theorem target_spec (h : CStr m p t) (he : p + t.length = e) : ∃ a m' p', (∀ fuel, t.length < fuel → target fuel m p = some (a, m', p')) ∧
    CStr m' p' (after t) ∧ p' + (after t).length = e ∧ Walked m m' p p' e ∧ Done m' p' e a (next t) := by
  obtain ⟨m1, p1, hrun1, hs1, he1, hw1⟩ := blankOut_spec h he
  obtain ⟨m2, p2, hrun2, hs2, he2, hw2, hd⟩ := cutToken_spec hs1 he1
  refine ⟨p1, m2, p2, fun fuel hf => ?_, hs2, he2, hw1.trans hw2, hd⟩
  rw [target, hrun1 fuel hf, bind_some, hrun2 fuel (lt_of_le_of_lt (length_dropWhile_le _ _) hf)]
  rfl

/-! ## Tokens -/

theorem words_space (t : Text) : words (' ' :: t) = words t := by
  unfold words
  rw [← nil_append (' ' :: t), splitOnP_append_cons [] t (by decide), splitOnP_nil]
  rfl

theorem words_dropWhile : ∀ t : Text, words (t.dropWhile (· == ' ')) = words t
  | [] => rfl
  | c :: t => by
    by_cases hc : c = ' '
    · rw [dropWhile_cons_of_pos (by simpa using hc), words_dropWhile t, hc, words_space]
    · rw [dropWhile_cons_of_neg (by simpa using hc)]

theorem mem_takeWhile_ne {c : Char} (h : c ∈ t.takeWhile (· != ' ')) : c ≠ ' ' := by simpa using mem_takeWhile_imp h

/-- The first token of a line that has one. -/
theorem words_next (h : t.dropWhile (· == ' ') ≠ []) : next t ≠ [] ∧ words t = next t :: words (after t) := by
  rw [← words_dropWhile t, next, after]
  have hhead := dropWhile_get_zero_not (· == ' ') t (length_pos_iff.2 h)
  generalize t.dropWhile (· == ' ') = u at *
  have hne : u.takeWhile (· != ' ') ≠ [] := by
    cases u with
    | nil => exact absurd rfl h
    | cons c u =>
      rw [takeWhile_cons_of_pos (by simpa using hhead)]
      exact cons_ne_nil _ _
  refine ⟨hne, ?_⟩
  have hno : ∀ x ∈ u.takeWhile (· != ' '), (x == ' ') = false := fun x hx => by simpa using mem_takeWhile_ne hx
  have hsplit : u.takeWhile (· != ' ') ++ u.dropWhile (· != ' ') = u := takeWhile_append_dropWhile
  cases hu : u.dropWhile (· != ' ') with
  | nil =>
    rw [hu, append_nil] at hsplit
    rw [hsplit] at hne hno ⊢
    rw [words, splitOnP_eq_singleton hno, filter_cons_of_pos (by simpa using hne)]
    rfl
  | cons c v =>
    have hc : c = ' ' := by
      have := dropWhile_get_zero_not (· != ' ') u (by rw [hu]; exact Nat.succ_pos _)
      simpa [hu] using this
    subst hc
    rw [hu] at hsplit
    nth_rewrite 1 [words, ← hsplit]
    rw [splitOnP_append_cons _ _ (by decide), splitOnP_eq_singleton hno, singleton_append,
      filter_cons_of_pos (by simpa using hne)]
    rfl

theorem words_nil (h : t.dropWhile (· == ' ') = []) : words t = [] := by
  rw [← words_dropWhile, h]
  rfl

theorem Reading.read_target (op : Redirect) (t : Text) (r : Reading) :
    Reading.read (some op) (words t) r = Reading.read none (words (after t)) (r.redirect (next t) op) := by
  by_cases h : t.dropWhile (· == ' ') = []
  · rw [words_nil h, next, after, h]
    rfl
  · rw [(words_next h).2]
    rfl

theorem Reading.read_args_le : ∀ (op : Option Redirect) (ts : List Text) {r : Reading}, r.args.length ≤ 31 →
    (Reading.read op ts r).args.length ≤ 31
  | none, [], _, h => h
  | some .input, [], _, h => h
  | some (.output _), [], _, h => h
  | some .input, _ :: ts, _, h => Reading.read_args_le none ts h
  | some (.output _), _ :: ts, _, h => Reading.read_args_le none ts h
  | none, t :: ts, r, h => by
    rw [Reading.read]
    by_cases hfull : 31 ≤ r.args.length
    · rwa [if_pos hfull]
    · rw [if_neg hfull]
      cases operator t with
      | some op => exact Reading.read_args_le (some op) ts h
      | none => exact Reading.read_args_le none ts (by rw [length_append, length_singleton]; omega)

/-! ## The whole line -/

structure Agrees (m : Mem) (p e : Nat) (r : Parsed) (d : Reading) : Prop where
  args : List.Forall₂ (Done m p e) r.argv d.args
  inf : Option.Rel (Done m p e) r.inf d.inf
  outf : Option.Rel (Done m p e) r.outf d.outf
  app : r.app = d.app

variable {r : Parsed} {d : Reading}

theorem rel_imp {R S : Nat → Text → Prop} (h : ∀ a t, R a t → S a t) {x : Option Nat} {y : Option Text} :
    Option.Rel R x y → Option.Rel S x y
  | .some hr => .some (h _ _ hr)
  | .none => .none

theorem Agrees.walked (h : Agrees m p e r d) (hw : Walked m m' p p' e) : Agrees m' p' e r d where
  args := h.args.imp fun _ _ hd => hd.walked hw
  inf := rel_imp (fun _ _ hd => hd.walked hw) h.inf
  outf := rel_imp (fun _ _ hd => hd.walked hw) h.outf
  app := h.app

def Parsed.redirect (r : Parsed) (file : Nat) : Redirect → Parsed
  | .input => { r with inf := some file }
  | .output app => { r with outf := some file, app := app }

theorem Agrees.redirect (h : Agrees m p e r d) (hd : Done m p e a t) (op : Redirect) :
    Agrees m p e (r.redirect a op) (d.redirect t op) := by
  cases op with
  | input => exact { h with inf := .some hd }
  | output app => exact { h with outf := .some hd, app := rfl }

theorem operator_output (hs : CStr m p t) (h : t = ['>'] ∨ t = ['>', '>']) : operator t = some (.output (m (p + 1) == '>')) := by
  rcases h with rfl | rfl
  · rw [show m (p + 1) = nul from hs.2.2]
    rfl
  · rw [show m (p + 1) = '>' from hs.2.2.1]
    rfl

theorem operator_none (h1 : t ≠ ['<']) (h2 : ¬ (t = ['>'] ∨ t = ['>', '>'])) : operator t = none := by
  rw [operator, if_neg h1, if_neg (fun h => h2 (.inl h)), if_neg (fun h => h2 (.inr h))]

/-- A turn of the loop that finds only spaces. -/
theorem parseLoop_blank (hs : CStr m p t) (he : p + t.length = e) (hgo : ¬ (m p = nul ∨ 31 ≤ r.argv.length))
    (hu : t.dropWhile (· == ' ') = []) :
    ∃ m' p', (∀ fuel, t.length < fuel → parseLoop (fuel + 1) m p r = some (m', r)) ∧ Walked m m' p p' e := by
  obtain ⟨m1, p1, hrun1, hs1, -, hw1⟩ := blankOut_spec hs he
  refine ⟨m1, p1, fun fuel hf => ?_, hw1⟩
  rw [parseLoop, if_neg hgo, hrun1 fuel hf, bind_some, if_pos (hs1.nul_iff.2 hu)]

/-- **A turn of the loop that finds a token.** -/
theorem parseLoop_token (hs : CStr m p t) (he : p + t.length = e) (hgo : ¬ (m p = nul ∨ 31 ≤ r.argv.length))
    (hu : t.dropWhile (· == ' ') ≠ []) : ∃ m' p' tok, (∀ fuel, t.length < fuel → parseLoop (fuel + 1) m p r =
      match operator (next t) with
      | some op => (target fuel m' p').bind fun z => parseLoop fuel z.2.1 z.2.2 (r.redirect z.1 op)
      | none => parseLoop fuel m' p' { r with argv := r.argv ++ [tok] }) ∧
    CStr m' p' (after t) ∧ p' + (after t).length = e ∧ p < p' ∧ Walked m m' p p' e ∧ Done m' p' e tok (next t) := by
  obtain ⟨m1, p1, hrun1, hs1, he1, hw1⟩ := blankOut_spec hs he
  obtain ⟨m2, p2, hrun2, hs2, he2, hw2, hd⟩ := cutToken_spec hs1 he1
  have hpos : 0 < (next t).length := length_pos_iff.2 (words_next hu).1
  have hlt : p < p2 := by
    have := hw1.le
    have hd2 : p1 + (next t).length < p2 ∨ p2 = e ∧ p1 + (next t).length = e := hd.2
    omega
  refine ⟨m2, p2, p1, fun fuel hf => ?_, hs2, he2, hlt, hw1.trans hw2, hd⟩
  have hd1 : CStr m2 p1 (next t) := hd.1
  rw [parseLoop, if_neg hgo, hrun1 fuel hf, bind_some, if_neg (fun hx => hu (hs1.nul_iff.1 hx)),
    hrun2 fuel (lt_of_le_of_lt (length_dropWhile_le _ _) hf), bind_some]
  simp only [hd1.strEq_iff (s := ['<']) (by decide), or_eq_true, hd1.strEq_iff (s := ['>']) (by decide),
    hd1.strEq_iff (s := ['>', '>']) (by decide)]
  by_cases h1 : next t = ['<']
  · rw [if_pos h1, h1]
    rfl
  rw [if_neg h1]
  by_cases h2 : next t = ['>'] ∨ next t = ['>', '>']
  · rw [if_pos h2, operator_output hd1 h2]
    rfl
  · rw [if_neg h2, operator_none h1 h2]

/-- **The loop of `parse`** reads the tokens that are left. -/
theorem parseLoop_spec {t : Text} {m : Mem} {p : Nat} {r : Parsed} {d : Reading} (hs : CStr m p t) (he : p + t.length = e)
    (ha : Agrees m p e r d) : ∃ m' p' r', (∀ fuel, t.length + 1 < fuel → parseLoop fuel m p r = some (m', r')) ∧
      Walked m m' p p' e ∧ Agrees m' p' e r' (Reading.read none (words t) d) := by
  have hargs : r.argv.length = d.args.length := ha.args.length_eq
  by_cases hstop : m p = nul ∨ 31 ≤ r.argv.length
  · refine ⟨m, p, r, fun fuel hf => ?_, ⟨le_refl _, by omega, fun _ _ => rfl⟩, ?_⟩
    · obtain ⟨f, rfl⟩ := Nat.exists_eq_add_of_lt hf
      rw [parseLoop, if_pos hstop]
    · rcases hstop with hnul | hfull
      · rw [hs.nul_iff.1 hnul]
        exact ha
      · cases words t with
        | nil => exact ha
        | cons w ws => rwa [Reading.read, if_pos (by omega)]
  by_cases hu : t.dropWhile (· == ' ') = []
  · obtain ⟨m1, p1, hrun, hw⟩ := parseLoop_blank hs he hstop hu
    rw [words_nil hu]
    refine ⟨m1, p1, r, fun fuel hf => ?_, hw, ha.walked hw⟩
    obtain ⟨f, rfl⟩ := Nat.exists_eq_add_of_lt hf
    exact hrun _ (by omega)
  obtain ⟨m2, p2, tok, hrun, hs2, he2, hlt, hw2, hd2⟩ := parseLoop_token hs he hstop hu
  have ha2 := ha.walked hw2
  rw [(words_next hu).2, Reading.read, if_neg (by omega)]
  cases hop : operator (next t) with
  | none =>
    obtain ⟨m', p', r', hrec, hw', ha'⟩ := parseLoop_spec hs2 he2
      (r := { r with argv := r.argv ++ [tok] }) (d := { d with args := d.args ++ [next t] })
      { ha2 with args := rel_append ha2.args (.cons hd2 .nil) }
    refine ⟨m', p', r', fun fuel hf => ?_, hw2.trans hw', ha'⟩
    obtain ⟨f, rfl⟩ := Nat.exists_eq_add_of_lt hf
    rw [hrun _ (by omega), hop]
    exact hrec _ (by omega)
  | some op =>
    obtain ⟨a, m3, p3, hrun3, hs3, he3, hw3, hd3⟩ := target_spec hs2 he2
    have hle3 := hw3.le
    obtain ⟨m', p', r', hrec, hw', ha'⟩ := parseLoop_spec hs3 he3 ((ha2.walked hw3).redirect hd3 op)
    refine ⟨m', p', r', fun fuel hf => ?_, (hw2.trans hw3).trans hw', by dsimp only; rw [Reading.read_target]; exact ha'⟩
    obtain ⟨f, rfl⟩ := Nat.exists_eq_add_of_lt hf
    rw [hrun _ (by omega), hop]
    dsimp only
    rw [hrun3 _ (by omega), bind_some]
    exact hrec _ (by omega)
termination_by t.length

/-- **`parse` reads a line by its grammar.**  Over any memory that holds the line `t`, and whatever follows it, `parse` ends; it
stores nothing at or after the end of the line; the pointers it leaves in `argv`, at most 31 of them, and in `*inf` and `*outf`
name, in the memory as it is then, the strings of the reading of `t`; and so does `*app`. -/
theorem parse_reads (m : Mem) (t : Text) (hs : CStr m 0 t) : ∃ m' r,
    (∀ fuel, t.length + 1 < fuel → parse fuel m = some (m', r)) ∧ (∀ i, t.length ≤ i → m' i = m i) ∧ r.argv.length ≤ 31 ∧
    List.Forall₂ (CStr m') r.argv (reading t).args ∧ Option.Rel (CStr m') r.inf (reading t).inf ∧
    Option.Rel (CStr m') r.outf (reading t).outf ∧ r.app = (reading t).app := by
  obtain ⟨m', p', r, hrun, hw, ha⟩ := parseLoop_spec hs (zero_add _) (r := ⟨[], none, none, false⟩)
    (d := ⟨[], none, none, false⟩) ⟨.nil, .none, .none, rfl⟩
  refine ⟨m', r, hrun, fun i hi => hw.same i (by omega), ?_, ha.args.imp fun _ _ h => h.1, rel_imp (fun _ _ h => h.1) ha.inf,
    rel_imp (fun _ _ h => h.1) ha.outf, ha.app⟩
  rw [ha.args.length_eq]
  exact Reading.read_args_le _ _ (Nat.zero_le _)

end Walk

/-- `a >b > c < `: an operator stands alone, and its target is the next token. -/
def spaced : Text := ['a', ' ', '>', 'b', ' ', '>', ' ', 'c', ' ', '<', ' ']

example : (reading spaced).args = [['a'], ['>', 'b']] ∧ (reading spaced).outf = some ['c'] ∧ (reading spaced).inf = some [] := by
  decide

theorem parse_reads_spaced : ∃ m' r, (∀ fuel, 12 < fuel → parse fuel (fun i => spaced.getD i nul) = some (m', r)) ∧
    List.Forall₂ (CStr m') r.argv [['a'], ['>', 'b']] := by
  obtain ⟨m', r, h1, -, -, h2, -⟩ := parse_reads (fun i => spaced.getD i nul) spaced (by simp [CStr, spaced, nul])
  exact ⟨m', r, h1, h2⟩

end Nsh
end Noxis
