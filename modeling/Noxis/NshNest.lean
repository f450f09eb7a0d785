import Noxis.NshCollect
/-!
# NshNest — where a compound command typed at the prompt ends

`collect_block` counts every `if`, `while` and `for` as one level deeper, but only the keyword that closes the first line brings
it back; `find_end` and `find_done` count one kind of block each.  Over well-nested lines the two scans come back to the depth they
had (`scanFrom_nested`), while the count of `collect_block` keeps one level for every block of the other kind (`closes_nested`).
-/
namespace Noxis

open List Option
namespace Nsh

/-! ## Well-nested lines -/

def opens (t : Text) : Option Keyword :=
  if isKw t .kIf then some .kFi else if isKw t .kWhile || isKw t .kFor then some .kDone else none

/-- Lines in which every `if` has its `fi`, and every `while` and `for` its `done`. -/
inductive Nested : List Text → Prop where
  | nil : Nested []
  | line {t : Text} {ts : List Text} : opens t = none → isKw t .kFi = false → isKw t .kDone = false → Nested ts → Nested (t :: ts)
  | block {t e : Text} {kw : Keyword} {b ts : List Text} : opens t = some kw → isKw e kw = true → Nested b → Nested ts →
      Nested (t :: (b ++ e :: ts))

variable {t : Text} {kw kw' : Keyword}

theorem isKw_unique (h : isKw t kw = true) (h' : isKw t kw' = true) : kw = kw' :=
  Keyword.text_injective ((isKw_iff.1 h).symm.trans (isKw_iff.1 h'))

theorem isKw_of_ne (h : isKw t kw = true) (hne : kw ≠ kw') : isKw t kw' = false :=
  Bool.eq_false_iff.2 fun h' => hne (isKw_unique h h')

theorem isKw_trim (t : Text) : isKw (trim t) = isKw t := by
  funext kw
  unfold isKw trim
  rw [dropWhile_idempotent]

theorem opens_cases (h : opens t = some kw) :
    (isKw t .kIf = true ∧ kw = .kFi) ∨ ((isKw t .kWhile = true ∨ isKw t .kFor = true) ∧ kw = .kDone) := by
  unfold opens at h
  split at h
  · exact .inl ⟨‹_›, (some.inj h).symm⟩
  · split at h
    · exact .inr ⟨by simpa using ‹(isKw t .kWhile || isKw t .kFor) = true›, (some.inj h).symm⟩
    · cases h

theorem isOpener_iff (t : Text) : isOpener t = (opens t).isSome := by
  unfold isOpener opens
  cases isKw t .kIf <;> cases isKw t .kWhile <;> cases isKw t .kFor <;> rfl

theorem opens_of_closer (hkw : kw = .kFi ∨ kw = .kDone) (h : isKw t kw = true) : opens t = none := by
  have hne : ∀ kw', kw' = .kIf ∨ kw' = .kWhile ∨ kw' = .kFor → isKw t kw' = false := fun kw' hk =>
    isKw_of_ne h (by rcases hkw with rfl | rfl <;> rcases hk with rfl | rfl | rfl <;> decide)
  rw [opens, hne _ (.inl rfl), hne _ (.inr (.inl rfl)), hne _ (.inr (.inr rfl))]
  rfl

theorem not_closer_of_opens (h : opens t = some kw) (hkw : kw' = .kFi ∨ kw' = .kDone) : isKw t kw' = false :=
  Bool.eq_false_iff.2 fun h' => by rw [opens_of_closer hkw h'] at h; cases h

theorem closer_of_opens (h : opens t = some kw) : kw = .kFi ∨ kw = .kDone :=
  (opens_cases h).imp And.right And.right

/-! ## The two counts -/

def mixed (kw : Keyword) (ts : List Text) : Nat := ts.countP fun t => (opens t).any (· ≠ kw)

variable {ts : List Text}

theorem closes_cons {d : Int} : Closes kw d (t :: ts) ↔ if isKw t kw then
      if (if (opens t).isSome then d + 1 else d) = 0 then ts = [] else Closes kw ((if (opens t).isSome then d + 1 else d) - 1) ts
    else Closes kw (if (opens t).isSome then d + 1 else d) ts := by
  rw [Closes, isOpener_iff, isKw_trim, show opens (trim t) = opens t by rw [opens, opens, isKw_trim]]

/-- **The count of `collect_block`** keeps a level for every block of the other kind. -/
theorem closes_nested (hkw : kw = .kFi ∨ kw = .kDone) (h : Nested ts) :
    ∀ {d : Int} {us : List Text}, 0 ≤ d → (Closes kw d (ts ++ us) ↔ Closes kw (d + mixed kw ts) us) := by
  induction h with
  | nil => exact fun {d us} _ => by rw [nil_append, mixed, countP_nil, Nat.cast_zero, Int.add_zero]
  | @line t ts hop hfi hdone _ ih =>
    intro d us hd
    have hno : isKw t kw = false := by rcases hkw with rfl | rfl <;> assumption
    rw [cons_append, closes_cons, hno, hop, isSome_none, if_neg Bool.false_ne_true, if_neg Bool.false_ne_true, ih hd,
      mixed, mixed, countP_cons_of_neg (by rw [hop]; exact Bool.false_ne_true)]
  | @block t e kw' b ts hop hcl _ _ ihb iht =>
    intro d us hd
    have hkw' := closer_of_opens hop
    have he : opens e = none := opens_of_closer hkw' hcl
    have hcount : mixed kw (t :: (b ++ e :: ts)) = (if kw' = kw then 0 else 1) + mixed kw b + mixed kw ts := by
      unfold mixed
      rw [countP_cons, countP_append, countP_cons_of_neg (by rw [he]; exact Bool.false_ne_true), hop]
      by_cases hk : kw' = kw
      · rw [if_pos hk, any_some, if_neg (by simpa using hk)]
        omega
      · rw [if_neg hk, any_some, if_pos (by simpa using hk)]
        omega
    rw [cons_append, append_assoc, cons_append, closes_cons, not_closer_of_opens hop hkw, hop,
      isSome_some, if_neg Bool.false_ne_true, if_pos rfl, ihb (by omega), closes_cons, he, isSome_none, hcount]
    by_cases hk : kw' = kw
    · subst hk
      rw [if_pos hcl, if_neg Bool.false_ne_true, if_neg (by omega), iht (by omega), if_pos rfl]
      exact iff_of_eq (congrArg (Closes kw' · us) (by push_cast; omega))
    · rw [if_neg (by rw [isKw_of_ne hcl hk]; decide), if_neg Bool.false_ne_true, iht (by omega), if_neg hk]
      exact iff_of_eq (congrArg (Closes kw · us) (by push_cast; omega))

/-- `find_end` for an `if`, `find_done` for a loop. -/
def findClose (kw : Keyword) (sb : Sb) (start stop : Nat) : Nat :=
  if kw = .kFi then findEnd sb start stop .kIf .kFi else findDone sb start stop

def findStep (kw : Keyword) : Int → (Keyword → Bool) → Option Int := if kw = .kFi then findEndStep .kIf .kFi else findDoneStep

theorem findClose_eq (kw : Keyword) (sb : Sb) (start stop : Nat) :
    findClose kw sb start stop = scanFrom sb (fun d t => findStep kw d (isKw t)) (stop - start) start 0 := by
  unfold findClose findStep
  split <;> rfl

theorem findStep_eq (hkw : kw = .kFi ∨ kw = .kDone) (d : Int) (t : Text) : findStep kw d (isKw t) =
    if opens t = some kw then some (d + 1) else if isKw t kw then (if d = 0 then none else some (d - 1)) else some d := by
  rcases hkw with rfl | rfl
  · rw [findStep, if_pos rfl, findEndStep, closeStep, opens]
    cases isKw t .kIf <;> cases isKw t .kWhile <;> cases isKw t .kFor <;> simp
  rw [findStep, if_neg (by decide), findDoneStep, closeStep, opens]
  cases hif : isKw t .kIf
  · cases isKw t .kWhile <;> cases isKw t .kFor <;> simp
  · rw [isKw_of_ne hif (by decide : Keyword.kIf ≠ .kWhile), isKw_of_ne hif (by decide : Keyword.kIf ≠ .kFor)]
    simp

def LinesAt (sb : Sb) : Nat → List Text → Prop
  | _, [] => True
  | i, t :: ts => sb i = t ∧ LinesAt sb (i + 1) ts

theorem linesAt_append {sb : Sb} : ∀ {ts us : List Text} {i : Nat},
    LinesAt sb i (ts ++ us) ↔ LinesAt sb i ts ∧ LinesAt sb (i + ts.length) us
  | [], us, i => by rw [nil_append, LinesAt, true_and, length_nil, add_zero]
  | t :: ts, us, i => by
    rw [cons_append, LinesAt, LinesAt, linesAt_append, and_assoc, length_cons, add_right_comm, add_assoc]

/-- **The scans of `exec_block`** come back to the depth they had. -/
theorem scanFrom_nested (hkw : kw = .kFi ∨ kw = .kDone) {sb : Sb} (h : Nested ts) :
    ∀ {i n : Nat} {d : Int}, 0 ≤ d → LinesAt sb i ts → scanFrom sb (fun d t => findStep kw d (isKw t)) (ts.length + n) i d =
      scanFrom sb (fun d t => findStep kw d (isKw t)) n (i + ts.length) d := by
  have hcons : ∀ {t : Text} {i m : Nat} {d e : Int}, sb i = t → findStep kw d (isKw t) = some e →
      scanFrom sb (fun d t => findStep kw d (isKw t)) (m + 1) i d =
        scanFrom sb (fun d t => findStep kw d (isKw t)) m (i + 1) e := fun ht hs => by rw [scanFrom, ht, hs]
  induction h with
  | nil => exact fun {i n d} _ _ => by rw [length_nil, zero_add, add_zero]
  | @line t ts hop hfi hdone _ ih =>
    intro i n d hd hl
    have hno : isKw t kw = false := by rcases hkw with rfl | rfl <;> assumption
    rw [length_cons, add_right_comm, hcons hl.1 (e := d), ih hd hl.2, add_right_comm, add_assoc]
    rw [findStep_eq hkw, hop, if_neg (some_ne_none _).symm, hno, if_neg Bool.false_ne_true]
  | @block t e kw' b ts hop hcl _ _ ihb iht =>
    intro i n d hd hl
    have he : opens e = none := opens_of_closer (closer_of_opens hop) hcl
    obtain ⟨ht, hl⟩ := hl
    obtain ⟨hb, hl⟩ := linesAt_append.1 hl
    -- `kw` counts this block or does not see it
    obtain ⟨d', hd', h1, h2⟩ : ∃ d', 0 ≤ d' ∧ findStep kw d (isKw t) = some d' ∧ findStep kw d' (isKw e) = some d := by
      rw [findStep_eq hkw, hop]
      by_cases hk : kw' = kw
      · refine ⟨d + 1, by omega, by rw [if_pos (by rw [hk])], ?_⟩
        rw [findStep_eq hkw, he, if_neg (some_ne_none _).symm, ← hk, if_pos hcl, if_neg (by omega), Int.add_sub_cancel]
      · refine ⟨d, hd, ?_, ?_⟩
        · rw [if_neg (fun hx => hk (some.inj hx)), not_closer_of_opens hop hkw, if_neg Bool.false_ne_true]
        · rw [findStep_eq hkw, he, if_neg (some_ne_none _).symm, isKw_of_ne hcl hk, if_neg Bool.false_ne_true]
    rw [show (t :: (b ++ e :: ts)).length + n = b.length + (ts.length + n + 1) + 1 by
        rw [length_cons, length_append, length_cons]; omega,
      hcons ht h1, ihb hd' hb, hcons hl.1 h2, iht hd hl.2]
    congr 1
    rw [length_cons, length_append, length_cons]
    omega

/-! ## The end of the command -/

def lineAt (ls : List Text) : Sb := fun k => ls.getD k []

theorem linesAt_lineAt : ∀ (ts pre : List Text), LinesAt (lineAt (pre ++ ts)) pre.length ts
  | [], _ => trivial
  | t :: ts, pre => by
    refine ⟨by simp [lineAt], ?_⟩
    have h := linesAt_lineAt ts (pre ++ [t])
    rwa [append_assoc, length_append] at h

theorem isBlankLine_of_isKw (h : isKw t kw = true) : isBlankLine t = false := by
  refine Bool.eq_false_iff.2 fun hb => ?_
  have htrim : trim t = [] := dropWhile_eq_nil_iff.2 (by simpa [isBlankLine] using hb)
  rw [isKw_iff, htrim] at h
  cases kw <;> cases h

theorem heard_append (c c' : List Text) : heard (c ++ c') = heard c ++ heard c' := by
  unfold heard
  rw [map_append, filter_append]

theorem mixed_eq_zero : mixed kw ts = 0 ↔ ∀ t ∈ ts, ∀ kw', opens t = some kw' → kw' = kw := by
  rw [mixed, countP_eq_zero]
  refine forall₂_congr fun t _ => ?_
  cases opens t <;> simp

/-- **Where `collect_block` ends.**  For a compound command whose lines are well nested, whatever is typed after it: `find_end` and
`find_done` find the line that closes it; `collect_block` stops there, within the slots, if and only if there is no block of the
other kind in it and its lines fit the buffer. -/
theorem collect_block_stops_iff {first close : Text} {kw : Keyword} {body : List Text} (ho : opens first = some kw)
    (hb : Nested (heard body)) (hc : isKw (heardLine close) kw = true) (rest : List Text) (sb : Buf) :
    findClose kw (lineAt (first :: heard (body ++ close :: rest))) 1 ((heard (body ++ close :: rest)).length + 1) =
      (heard body).length + 1 ∧ ((∃ n sb', collectBlock sb first (body ++ close :: rest) = some (n, sb', rest)) ↔
      (∀ t ∈ heard body, ∀ kw', opens t = some kw' → kw' = kw) ∧ (heard body).length + 2 ≤ 512) := by
  have hkw := closer_of_opens ho
  have hclose : opens (heardLine close) = none := opens_of_closer hkw hc
  have hnb := isBlankLine_of_isKw hc
  have hlast : ∀ c, heard (close :: c) = heardLine close :: heard c := fun c => by rw [heard_cons, if_neg (by rw [hnb]; decide)]
  have hclosed : closeKw first = kw := by
    rcases opens_cases ho with ⟨h, rfl⟩ | ⟨h, rfl⟩
    · exact if_pos h
    · exact if_neg (by rcases h with h | h <;> rw [isKw_of_ne h (by decide)] <;> decide)
  have hcl : Closes kw 0 (heard (body ++ [close])) ↔ mixed kw (heard body) = 0 := by
    rw [heard_append, hlast, closes_nested hkw hb (Int.le_refl 0), closes_cons, if_pos hc, hclose, isSome_none,
      if_neg Bool.false_ne_true]
    by_cases h0 : mixed kw (heard body) = 0
    · rw [if_pos (by omega)]
      exact ⟨fun _ => h0, fun _ => rfl⟩
    · rw [if_neg (by omega)]
      exact ⟨False.elim, fun h => absurd h h0⟩
  refine ⟨?_, ?_⟩
  · obtain ⟨hl, hl'⟩ := linesAt_append.1 (linesAt_lineAt (heard body ++ heardLine close :: heard rest) [first])
    rw [heard_append, hlast, findClose_eq, length_append, length_cons, Nat.add_sub_cancel]
    refine (scanFrom_nested hkw hb (Int.le_refl 0) hl).trans ?_
    rw [scanFrom, hl'.1, findStep_eq hkw, hclose, if_neg (some_ne_none _).symm, if_pos hc, if_pos rfl]
    exact add_comm _ _
  · rw [← mixed_eq_zero, collectBlock, hclosed]
    constructor
    · rintro ⟨n, sb', h⟩
      obtain ⟨pre, h1, h2, h3, h4, -⟩ := collectLoop_some h
      rw [show body ++ close :: rest = (body ++ [close]) ++ rest by simp] at h1
      obtain rfl := append_cancel_right h1
      refine ⟨hcl.1 h2, ?_⟩
      rw [heard_append, hlast, length_append, length_cons] at h3
      omega
    · rintro ⟨h0, hlen⟩
      rw [show body ++ close :: rest = (body ++ [close]) ++ rest by simp]
      refine ⟨_, _, collectLoop_closes ?_ (hcl.2 h0) ?_⟩
      · rw [List.getLast?_append_cons]
        rintro s ⟨⟩
        exact hnb
      · rw [heard_append, hlast, length_append, length_cons]
        have hnil : (heard []).length = 0 := rfl
        omega

/-- `if pwd`, `then`, `pwd`, `fi`. -/
theorem collect_block_stops_if : ∃ n sb',
    collectBlock freshBuf ifPwd.text ([thenLine.text, pwdLine.text] ++ [fiLine.text]) = some (n, sb', []) := by
  have hb : Nested (heard [thenLine.text, pwdLine.text]) :=
    .line (by decide) (by decide) (by decide) (.line (by decide) (by decide) (by decide) .nil)
  have ho : opens ifPwd.text = some .kFi := by decide
  have hc : isKw (heardLine fiLine.text) .kFi = true := by decide
  exact (collect_block_stops_iff ho hb hc [] freshBuf).2.2 ⟨by decide, by decide⟩

def whilePwd : Text := ['w', 'h', 'i', 'l', 'e', ' ', 'p', 'w', 'd']
def doLine : Text := ['d', 'o']
def doneLine : Text := ['d', 'o', 'n', 'e']

/-- **A loop inside an `if`**: its `while` is counted and its `done` is not, so the `fi` does not end the command, and what is typed
next is read as part of it. -/
theorem collect_block_runs_on : opens ifPwd.text = some .kFi ∧ Nested [thenLine.text, whilePwd, doLine, doneLine] ∧
    collectBlock freshBuf ifPwd.text ([thenLine.text, whilePwd, doLine, doneLine] ++ fiLine.text :: [pwdLine.text]) = none :=
  ⟨by decide, .line (by decide) (by decide) (by decide) (.block (b := [doLine])
    (show opens whilePwd = some .kDone by decide) (by decide) (.line (by decide) (by decide) (by decide) .nil) .nil), by decide +kernel⟩

end Nsh
end Noxis
