import Noxis.Nsh
/-!
# NshScript — scripts, what they mean and how they are laid out

`Script` is the syntax of compound commands and `Script.eval` what they mean: which commands are run and which variables are
set, in which order, given the statuses the commands answer.  `Lay sb i its` says that the lines of the buffer from `i` on are
the items of a script, one a line, with blanks around.  The lemmas of `Shows` say what the shell's tests on a line answer for
each item.
-/
namespace Noxis

open List Option Bool
namespace Nsh

open Outcome

/-! ## Syntax -/

def firstWord (c : Text) : Text := (trim c).takeWhile fun x => !isBlank x

/-- A command in a script: not blank, no `;`, no comment and not a keyword line. -/
structure Clean (c : Text) : Prop where
  nonblank : trim c ≠ []
  whole : ';' ∉ c
  code : (trim c).head? ≠ some '#'
  plain : ∀ kw : Keyword, firstWord c ≠ kw.text

structure Command where
  text : Text
  clean : Clean text

/-- A condition is the command itself, the blanks around it belong to the layout. -/
structure Cond where
  text : Text
  clean : Clean text
  tightLeft : trim text = text
  tightRight : text.rdropWhile isBlank = text

structure Var where
  text : Text
  nonempty : text ≠ []
  plain : ' ' ∉ text

structure Word where
  text : Text
  nonempty : text ≠ []
  plain : ∀ c ∈ text, c ≠ ' ' ∧ c ≠ ';'
  short : text.length ≤ 63

def Words : Type := { ws : List Word // ws.length ≤ 32 }

mutual
inductive Script where
  | nil
  | cmd (c : Command) (k : Script)
  | ite (c : Cond) (b : Script) (t : Tail) (k : Script)
  | loop (c : Cond) (b : Script) (k : Script)
  | each (v : Var) (ws : Words) (b : Script) (k : Script)
inductive Tail where
  | fi
  | els (b : Script)
  | elif (c : Cond) (b : Script) (t : Tail)
end

/-! ## Meaning -/

def Io.test (io : Io) (c : Text) : Outcome (List Event) (Bool × Io) := (io.exec1 c).map fun x => (x.1 == 0, x.2)

mutual
/-- **What a script does.**  Every round of a `while` takes a status, so that one round more than there are statuses is as good
as any number. -/
def Script.eval : Script → Io → Outcome (List Event) Io
  | .nil, io => .ret io
  | .cmd c k, io => (io.exec1 c.text).bind fun x => k.eval { x.2 with last := x.1 }
  | .ite c b t k, io => ((io.exec1 c.text).bind fun x => if x.1 = 0 then b.eval x.2 else t.eval x.2).bind k.eval
  | .loop c b k, io => (whileLoop (fun io => io.test c.text) b.eval (io.statuses.length + 1) io).bind k.eval
  | .each v ws b k, io => (forLoop (fun w io => b.eval (io.emit (.setenv v.text w.text))) ws.1 io).bind k.eval
def Tail.eval : Tail → Io → Outcome (List Event) Io
  | .fi, io => .ret io
  | .els b, io => b.eval io
  | .elif c b t, io => (io.exec1 c.text).bind fun x => if x.1 = 0 then b.eval x.2 else t.eval x.2
end

/-! ## Layout -/

inductive Item where
  | cmd (c : Command)
  | cond (kw : Keyword) (c : Cond)
  | bare (kw : Keyword)
  | forIn (v : Var) (ws : Words)

def Item.kw : Item → Option Keyword
  | .cmd _ => none
  | .cond kw _ => some kw
  | .bare kw => some kw
  | .forIn _ _ => some .kFor

mutual
def Script.items : Script → List Item
  | .nil => []
  | .cmd c k => .cmd c :: k.items
  | .ite c b t k => .cond .kIf c :: .bare .kThen :: (b.items ++ (t.items ++ k.items))
  | .loop c b k => .cond .kWhile c :: .bare .kDo :: (b.items ++ .bare .kDone :: k.items)
  | .each v ws b k => .forIn v ws :: .bare .kDo :: (b.items ++ .bare .kDone :: k.items)
def Tail.items : Tail → List Item
  | .fi => [.bare .kFi]
  | .els b => .bare .kElse :: (b.items ++ [.bare .kFi])
  | .elif c b t => .cond .kElif c :: .bare .kThen :: (b.items ++ t.items)
end

def Blanks (t : Text) : Prop := ∀ c ∈ t, isBlank c = true
def Spaces (t : Text) : Prop := ∀ c ∈ t, c = ' '

def Spread : List Word → Text → Prop
  | [], t => Spaces t
  | w :: ws, t => ∃ s r, t = s ++ w.text ++ r ∧ Spaces s ∧ s ≠ [] ∧ Spread ws r

def Shows (t : Text) : Item → Prop
  | .cmd c => t = c.text
  | .cond kw c => ∃ l s r, t = l ++ (kw.text ++ (s ++ (c.text ++ r))) ∧ Blanks l ∧ Blanks s ∧ s ≠ [] ∧ Blanks r
  | .bare kw => ∃ l r, t = l ++ (kw.text ++ r) ∧ Blanks l ∧ Blanks r
  | .forIn v ws => ∃ l s s' r, t = l ++ (Keyword.kFor.text ++ (s ++ (v.text ++ (s' ++ (['i', 'n'] ++ r))))) ∧ Blanks l ∧
      Spaces s ∧ s ≠ [] ∧ Spaces s' ∧ s' ≠ [] ∧ Spread ws.1 r

def Lay (sb : Sb) : Nat → List Item → Prop
  | _, [] => True
  | i, it :: its => Shows (sb i) it ∧ (sb i).length ≤ 250 ∧ Lay sb (i + 1) its

/-! ## What the tests say about a line -/

section Lines

variable {t l r s : Text} {kw : Keyword} {it : Item}

theorem dropWhile_append_of_all {p : Char → Bool} : ∀ {l r : Text}, (∀ c ∈ l, p c = true) →
    (l ++ r).dropWhile p = r.dropWhile p
  | [], _, _ => rfl
  | a :: l, r, h => by
    rw [cons_append, dropWhile_cons_of_pos (h a mem_cons_self)]
    exact dropWhile_append_of_all (fun c hc => h c (mem_cons_of_mem _ hc))

theorem takeWhile_append_of_stop {p : Char → Bool} : ∀ {l r : Text}, (∀ c ∈ l, p c = true) →
    (∀ c ∈ r.head?, p c = false) → (l ++ r).takeWhile p = l
  | [], [], _, _ => rfl
  | [], a :: r, _, h => by rw [nil_append, takeWhile_cons_of_neg (by rw [h a rfl]; decide)]
  | a :: l, r, h, hr => by
    rw [cons_append, takeWhile_cons_of_pos (h a mem_cons_self),
      takeWhile_append_of_stop (fun c hc => h c (mem_cons_of_mem _ hc)) hr]

def isEnd (c : Char) : Bool := c == ' ' || c == '\t' || c == ';'

theorem Keyword.text_not_end (kw : Keyword) : ∀ c ∈ kw.text, isEnd c = false := by
  cases kw <;> simp [Keyword.text, isEnd]

theorem Keyword.text_injective {kw kw' : Keyword} (h : kw.text = kw'.text) : kw = kw' := by
  cases kw <;> cases kw' <;> first | rfl | exact absurd h (by decide)

theorem isKw_iff : isKw t kw = true ↔ (trim t).takeWhile (fun c => !isEnd c) = kw.text := by
  have hk : ∀ c ∈ kw.text, (!isEnd c) = true := fun c hc => by rw [kw.text_not_end c hc]; rfl
  unfold isKw
  generalize trim t = T
  constructor
  · intro h
    rw [and_eq_true, beq_iff_eq] at h
    have hT : T = kw.text ++ T.drop kw.text.length := by
      conv_lhs => rw [← take_append_drop kw.text.length T, h.1]
    rw [hT]
    refine takeWhile_append_of_stop hk fun c hc => ?_
    have h2 := h.2
    rw [mem_def.1 hc] at h2
    rw [show isEnd c = true from h2]
    rfl
  · intro h
    have hT : T = kw.text ++ T.dropWhile (fun c => !isEnd c) := by
      rw [← h]
      exact (takeWhile_append_dropWhile ..).symm
    have hhead := head?_dropWhile_not (fun c => !isEnd c) T
    generalize T.dropWhile (fun c => !isEnd c) = R at hT hhead
    rw [hT, take_left, drop_left, and_eq_true]
    refine ⟨beq_self_eq_true _, ?_⟩
    cases R with
    | nil => rfl
    | cons c R =>
      have : isEnd c = true := by simpa using hhead
      exact this

theorem isBlank_isEnd {c : Char} (h : isBlank c = true) : isEnd c = true := by
  unfold isEnd
  rw [show (c == ' ' || c == '\t') = true from h]
  rfl

theorem isKw_of_eq {kw' : Keyword} (hl : Blanks l) (hr : ∀ c ∈ r.head?, isBlank c = true) (ht : t = l ++ (kw.text ++ r)) :
    isKw t kw' = decide (some kw = some kw') := by
  have hk : ∀ c ∈ kw.text, (!isEnd c) = true := fun c hc => by rw [kw.text_not_end c hc]; rfl
  have htrim : trim t = kw.text ++ r := by
    rw [ht, trim, dropWhile_append_of_all hl]
    cases kw <;> rfl
  have hw : (trim t).takeWhile (fun c => !isEnd c) = kw.text := by
    rw [htrim]
    exact takeWhile_append_of_stop hk fun c hc => by rw [isBlank_isEnd (hr c hc)]; rfl
  rw [Bool.eq_iff_iff, isKw_iff, hw, decide_eq_true_eq, some_inj]
  exact ⟨Keyword.text_injective, congrArg _⟩

theorem isKw_of_clean {kw' : Keyword} (h : Clean t) : isKw t kw' = false := by
  rw [Bool.eq_false_iff, ne_eq, isKw_iff]
  intro hx
  refine h.plain kw' (Eq.trans ?_ hx)
  unfold firstWord
  have hsub : ∀ c ∈ trim t, c ≠ ';' := fun c hc he => h.whole (he ▸ (dropWhile_sublist _).subset hc)
  generalize trim t = T at hsub
  induction T with
  | nil => rfl
  | cons c T ih =>
    have hc : isEnd c = isBlank c := by
      unfold isEnd isBlank
      rw [show (c == ';') = false from beq_eq_false_iff_ne.2 (hsub c mem_cons_self), Bool.or_false]
    rw [takeWhile_cons, takeWhile_cons, hc, ih (fun x hx => hsub x (mem_cons_of_mem _ hx))]

theorem head?_blank (hs : Blanks s) (hne : s ≠ []) : ∀ c ∈ (s ++ r).head?, isBlank c = true := by
  cases s with
  | nil => exact absurd rfl hne
  | cons a s =>
    intro c hc
    rw [← some.inj hc]
    exact hs a mem_cons_self

theorem Blanks.of_spaces (h : Spaces t) : Blanks t := fun c hc => by rw [h c hc]; rfl

/-- **What the tests say about a line of a script.** -/
theorem Shows.isKw (h : Shows t it) (kw' : Keyword) : Nsh.isKw t kw' = decide (it.kw = some kw') := by
  cases it with
  | cmd c =>
    rw [show t = c.text from h, isKw_of_clean c.clean]
    rfl
  | cond kw c =>
    obtain ⟨l, s, r, ht, hl, hs, hne, -⟩ := h
    exact isKw_of_eq hl (head?_blank hs hne) ht
  | bare kw =>
    obtain ⟨l, r, ht, hl, hr⟩ := h
    exact isKw_of_eq hl (fun c hc => hr c (mem_of_mem_head? hc)) ht
  | forIn v ws =>
    obtain ⟨l, s, s', r, ht, hl, hs, hne, -⟩ := h
    exact isKw_of_eq hl (head?_blank (.of_spaces hs) hne) ht

theorem trim_kw (hl : Blanks l) : trim (l ++ (kw.text ++ r)) = kw.text ++ r := by
  rw [trim, dropWhile_append_of_all hl]
  cases kw <;> rfl

theorem Shows.not_skipped (h : Shows t it) : ¬ (trim t = [] ∨ (trim t).head? = some '#') := by
  have hkw : ∀ {l r : Text} {kw : Keyword}, Blanks l → t = l ++ (kw.text ++ r) → ¬ (trim t = [] ∨ (trim t).head? = some '#') := by
    intro l r kw hl ht
    rw [ht, trim_kw hl]
    cases kw <;> simp [Keyword.text]
  cases it with
  | cmd c =>
    rw [show t = c.text from h]
    exact not_or.2 ⟨c.clean.nonblank, c.clean.code⟩
  | cond kw c =>
    obtain ⟨l, s, r, ht, hl, -⟩ := h
    exact hkw hl ht
  | bare kw =>
    obtain ⟨l, r, ht, hl, -⟩ := h
    exact hkw hl ht
  | forIn v ws =>
    obtain ⟨l, s, s', r, ht, hl, -⟩ := h
    exact hkw hl ht

theorem rdropWhile_append_of_all {p : Char → Bool} (h : ∀ c ∈ r, p c = true) : (l ++ r).rdropWhile p = l.rdropWhile p := by
  rw [rdropWhile, reverse_append, dropWhile_append_of_all (fun c hc => h c (mem_reverse.1 hc))]
  rfl

theorem dropWhile_append_of_head {p : Char → Bool} (hl : l ≠ []) (h : ∀ c ∈ l.head?, p c = false) :
    (l ++ r).dropWhile p = l ++ r := by
  cases l with
  | nil => exact absurd rfl hl
  | cons a l => rw [cons_append, dropWhile_cons_of_neg (by rw [h a rfl]; decide)]

theorem Clean.ne_nil (h : Clean t) : t ≠ [] := fun hx => h.nonblank (by rw [hx]; rfl)

theorem Cond.head_not_blank (c : Cond) : ∀ x ∈ c.text.head?, isBlank x = false := by
  intro x hx
  have hhead := head?_dropWhile_not isBlank c.text
  rw [show c.text.dropWhile isBlank = c.text from c.tightLeft, mem_def.1 hx] at hhead
  exact hhead

theorem Shows.afterKw {c : Cond} (h : Shows t (.cond kw c)) (hlen : t.length ≤ 250) : Nsh.afterKw t kw = c.text := by
  obtain ⟨l, s, r, rfl, hl, hs, -, hr⟩ := h
  have hsemi : ∀ x ∈ c.text ++ r, (x != ';') = true := fun x hx => by
    rcases mem_append.1 hx with hx | hx
    · exact bne_iff_ne.2 fun he => c.clean.whole (he ▸ hx)
    · exact bne_iff_ne.2 fun he => absurd (hr x hx) (by rw [he]; decide)
  have hshort : (c.text ++ r).length ≤ 255 := by
    simp only [length_append] at hlen ⊢
    omega
  unfold Nsh.afterKw
  simp only [trim_kw hl, drop_left]
  rw [dropWhile_append_of_all hs, dropWhile_append_of_head c.clean.ne_nil c.head_not_blank, takeWhile_eq_self_iff.2 hsemi,
    take_of_length_le hshort, rdropWhile_append_of_all hr, c.tightRight]

theorem Shows.elifLine {c : Cond} (h : Shows t (.cond .kElif c)) (hlen : t.length ≤ 250) :
    Shows (Nsh.elifLine t) (.cond .kIf c) ∧ (Nsh.elifLine t).length ≤ 250 := by
  obtain ⟨l, s, r, rfl, hl, hs, -, hr⟩ := h
  have hdrop : (trim (l ++ (Keyword.kElif.text ++ (s ++ (c.text ++ r))))).drop 4 = s ++ (c.text ++ r) := by
    rw [trim_kw hl]
    rfl
  have hkl : Keyword.kElif.text.length = 4 := rfl
  simp only [length_append, hkl] at hlen
  have hline : Nsh.elifLine (l ++ (Keyword.kElif.text ++ (s ++ (c.text ++ r)))) = ['i', 'f', ' '] ++ (s ++ (c.text ++ r)) := by
    rw [Nsh.elifLine, hdrop, take_of_length_le]
    simp only [length_append, length_cons, length_nil]
    omega
  rw [hline]
  refine ⟨⟨[], ' ' :: s, r, rfl, fun _ hc => absurd hc not_mem_nil, fun x hx => ?_, cons_ne_nil _ _, hr⟩, ?_⟩
  · rcases mem_cons.1 hx with rfl | hx
    · rfl
    · exact hs x hx
  · simp only [length_append, length_cons, length_nil]
    omega

/-! ### The line of a `for` -/

theorem spanUpTo_append {p : Char → Bool} : ∀ {n : Nat} {l r : Text}, (∀ c ∈ l, p c = true) → (∀ c ∈ r.head?, p c = false) →
    l.length ≤ n → spanUpTo p n (l ++ r) = (l, r)
  | 0, [], r, _, _, _ => rfl
  | 0, _ :: _, r, _, _, h => by cases h
  | n + 1, [], [], _, _, _ => rfl
  | n + 1, [], c :: r, _, h, _ => by rw [nil_append, spanUpTo, if_neg (by rw [h c rfl]; decide)]
  | n + 1, c :: l, r, hl, h, hn => by
    rw [cons_append, spanUpTo, if_pos (hl c mem_cons_self),
      spanUpTo_append (fun x hx => hl x (mem_cons_of_mem _ hx)) h (Nat.le_of_succ_le_succ hn)]

theorem skipSpaces_append (hs : Spaces s) : skipSpaces (s ++ r) = skipSpaces r :=
  dropWhile_append_of_all fun c hc => by rw [hs c hc]; rfl

theorem skipSpaces_of_head (hl : l ≠ []) (h : ∀ c ∈ l, c ≠ ' ') : skipSpaces (l ++ r) = l ++ r :=
  dropWhile_append_of_head hl fun c hc => beq_eq_false_iff_ne.2 (h c (mem_of_mem_head? hc))

theorem Spread.head {ws : List Word} (h : Spread ws r) : ∀ c ∈ r.head?, c = ' ' := by
  intro c hc
  cases ws with
  | nil => exact h c (mem_of_mem_head? hc)
  | cons w ws =>
    obtain ⟨s, r', rfl, hs, hne, -⟩ := h
    cases s with
    | nil => exact absurd rfl hne
    | cons a s =>
      rw [← some.inj hc]
      exact hs a mem_cons_self

theorem forVals_skipSpaces (n : Nat) (t : Text) : forVals n (skipSpaces t) = forVals n t := by
  have hidem : skipSpaces (skipSpaces t) = skipSpaces t := dropWhile_idempotent _ t
  cases n with
  | zero => rfl
  | succ n =>
    by_cases h1 : t = [] ∨ t.head? = some ';'
    · have h2 : skipSpaces t = t := by
        rcases h1 with rfl | h1
        · rfl
        cases t with
        | nil => rfl
        | cons a t =>
          rw [some.inj h1]
          rfl
      rw [h2]
    · rw [forVals, forVals, if_neg h1]
      simp only [hidem]
      by_cases h3 : skipSpaces t = [] ∨ (skipSpaces t).head? = some ';'
      · rw [if_pos h3, if_pos h3]
      · rw [if_neg h3, if_neg h3]

theorem forVals_spread : ∀ {n : Nat} {ws : List Word} {r : Text}, Spread ws r → ws.length ≤ n → forVals n r = ws.map Word.text
  | 0, [], _, _, _ => rfl
  | 0, _ :: _, _, _, h => by cases h
  | n + 1, [], r, h, _ => by
    have hnil : skipSpaces r = [] := by
      have := skipSpaces_append (r := []) h
      rwa [append_nil] at this
    rw [← forVals_skipSpaces, hnil]
    rfl
  | n + 1, w :: ws, r, ⟨s, r', ht, hs, _, hr⟩, hn => by
    have hw : ∀ c ∈ w.text, c ≠ ' ' := fun c hc => (w.plain c hc).1
    have hskip : skipSpaces (w.text ++ r') = w.text ++ r' := skipSpaces_of_head w.nonempty hw
    have hgo : ¬ (w.text ++ r' = [] ∨ (w.text ++ r').head? = some ';') := by
      rintro (h | h)
      · exact w.nonempty (append_eq_nil_iff.1 h).1
      · cases hwt : w.text with
        | nil => exact w.nonempty hwt
        | cons a l =>
          rw [hwt] at h
          exact (w.plain a (hwt ▸ mem_cons_self)).2 (some.inj h)
    have hspan := spanUpTo_append (p := fun c => c != ' ' && c != ';') (r := r') (fun c hc => by
      rw [and_eq_true, bne_iff_ne, bne_iff_ne]
      exact w.plain c hc) (fun c hc => by rw [hr.head c hc]; rfl) w.short
    rw [← forVals_skipSpaces, ht, append_assoc, skipSpaces_append hs, hskip, forVals, if_neg hgo]
    simp only [hskip, if_neg hgo, hspan, map_cons]
    rw [forVals_spread hr (Nat.le_of_succ_le_succ hn)]

/-- **The line of a `for` gives its variable and its words**, for a variable of at most 31 characters. -/
theorem Shows.forHead {v : Var} {ws : Words} (h : Shows t (.forIn v ws)) (hv : v.text.length ≤ 31) :
    Nsh.forHead t = (v.text, ws.1.map Word.text) := by
  obtain ⟨l, s, s', r, rfl, hl, hs, -, hs', hne', hr⟩ := h
  have hvs : ∀ c ∈ v.text, c ≠ ' ' := fun c hc he => v.plain (he ▸ hc)
  have hspan := spanUpTo_append (p := fun c => c != ' ') (r := s' ++ (['i', 'n'] ++ r)) (fun c hc => bne_iff_ne.2 (hvs c hc))
    (fun c hc => by
      cases s' with
      | nil => exact absurd rfl hne'
      | cons a s' =>
        rw [← some.inj hc, hs' a mem_cons_self]
        rfl) hv
  have hdrop : (Keyword.kFor.text ++ (s ++ (v.text ++ (s' ++ (['i', 'n'] ++ r))))).drop 3 =
      s ++ (v.text ++ (s' ++ (['i', 'n'] ++ r))) := rfl
  have hin : skipSpaces (['i', 'n'] ++ r) = ['i', 'n'] ++ r := rfl
  unfold Nsh.forHead
  simp only [trim_kw hl, hdrop, skipSpaces_append hs, skipSpaces_of_head v.nonempty hvs, hspan, skipSpaces_append hs', hin]
  have htake : ((['i', 'n'] ++ r).take 2 == ['i', 'n']) = true := by simp
  rw [if_pos htake, forVals_skipSpaces, forVals_spread (show Spread ws.1 ((['i', 'n'] ++ r).drop 2) from hr) ws.2]

end Lines

end Nsh
end Noxis
