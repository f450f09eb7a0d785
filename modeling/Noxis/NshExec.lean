import Noxis.NshScript
/-!
# NshExec — `exec_block` runs a script as its syntax tree says

The scans find the lines of a compound command again because a script leaves their counters as they were
(`Script.depthAfter`).  `execBlock_eval` is the comparison with the meaning, by induction on the script; an `elif` is the `if` of
its rest, in a buffer with one line changed.
-/
namespace Noxis

open List Function Settles Int
namespace Nsh

open Outcome

/-! ## What the scans find -/

section Scans

variable {sb : Sb} {step : Int → (Keyword → Bool) → Option Int}

theorem lay_append : ∀ {i : Nat} {its its' : List Item}, Lay sb i (its ++ its') ↔ Lay sb i its ∧ Lay sb (i + its.length) its'
  | i, [], its' => by simp [Lay]
  | i, it :: its, its' => by
    rw [cons_append, Lay, Lay, lay_append, length_cons, and_assoc, and_assoc, add_right_comm, add_assoc]

def tests (o : Option Keyword) (kw : Keyword) : Bool := decide (o = some kw)

theorem Shows.isKw_eq {t : Text} {it : Item} (h : Shows t it) : Nsh.isKw t = tests it.kw := funext h.isKw

def depthAfter (step : Int → (Keyword → Bool) → Option Int) : List Item → Int → Option Int
  | [], d => some d
  | it :: its, d => (step d (tests it.kw)).bind (depthAfter step its)

theorem depthAfter_append (its' : List Item) : ∀ (its : List Item) (d : Int),
    depthAfter step (its ++ its') d = (depthAfter step its d).bind (depthAfter step its')
  | [], _ => rfl
  | it :: its, d => by
    rw [cons_append, depthAfter, depthAfter, Option.bind_assoc]
    congr 1
    exact funext (depthAfter_append its' its)

theorem scanFrom_passes {n : Nat} : ∀ {its : List Item} {i : Nat} {d d' : Int}, Lay sb i its → depthAfter step its d = some d' →
    scanFrom sb (fun d t => step d (isKw t)) (its.length + n) i d =
      scanFrom sb (fun d t => step d (isKw t)) n (i + its.length) d'
  | [], i, d, d', _, h => by
    cases h
    rw [length_nil, zero_add, add_zero]
  | it :: its, i, d, d', ⟨h1, _, h2⟩, h => by
    obtain ⟨d1, hd1, hd2⟩ := Option.bind_eq_some_iff.1 h
    rw [length_cons, add_right_comm, scanFrom, h1.isKw_eq, hd1]
    simp only
    rw [scanFrom_passes h2 hd2]
    congr 1
    omega

theorem scanFrom_stops {n i : Nat} {d : Int} {it : Item} (h : Shows (sb i) it) (hs : step d (tests it.kw) = none) :
    scanFrom sb (fun d t => step d (isKw t)) (n + 1) i d = i := by
  rw [scanFrom, h.isKw_eq, hs]

/-- A scan that counts: an `if` adds `a` until its `fi`, a loop `b` until its `done`, and nothing of depth 0 or more inside
them stops it. -/
structure Counts (step : Int → (Keyword → Bool) → Option Int) (a b : Int) : Prop where
  a_pos : 0 ≤ a
  b_pos : 0 ≤ b
  cmd : ∀ d, step d (tests none) = some d
  then_ : ∀ d, step d (tests (some .kThen)) = some d
  do_ : ∀ d, step d (tests (some .kDo)) = some d
  if_ : ∀ d, step d (tests (some .kIf)) = some (d + a)
  else_ : ∀ d, 0 ≤ d → step (d + a) (tests (some .kElse)) = some (d + a)
  elif : ∀ d, 0 ≤ d → step (d + a) (tests (some .kElif)) = some (d + a)
  fi : ∀ d, 0 ≤ d → step (d + a) (tests (some .kFi)) = some d
  while_ : ∀ d, step d (tests (some .kWhile)) = some (d + b)
  for_ : ∀ d, step d (tests (some .kFor)) = some (d + b)
  done : ∀ d, 0 ≤ d → step (d + b) (tests (some .kDone)) = some d

theorem findEndStep_counts : Counts (findEndStep .kIf .kFi) 1 0 := by
  constructor <;> intros <;> simp [findEndStep, closeStep, tests]
  all_goals omega

theorem findDoneStep_counts : Counts findDoneStep 0 1 := by
  constructor <;> intros <;> simp [findDoneStep, closeStep, tests]
  all_goals omega

theorem elseStep_counts : Counts elseStep 1 0 := by
  constructor <;> intros <;> simp [elseStep, tests] <;> omega

mutual
/-- **A script leaves the depth as it was.** -/
theorem Script.depthAfter {a b : Int} (hc : Counts step a b) : ∀ (s : Script) (d : Int), 0 ≤ d →
    Nsh.depthAfter step s.items d = some d
  | .nil, _, _ => rfl
  | .cmd c k, d, hd => by
    rw [Script.items, Nsh.depthAfter, Item.kw, hc.cmd]
    exact k.depthAfter hc d hd
  | .ite c s t k, d, hd => by
    have h1 := s.depthAfter hc (d + a) (add_nonneg hd hc.a_pos)
    have h2 := t.depthAfter hc d hd
    rw [Script.items, Nsh.depthAfter, Item.kw, hc.if_, Option.bind_some, Nsh.depthAfter, Item.kw, hc.then_, Option.bind_some,
      depthAfter_append, h1, Option.bind_some, depthAfter_append, h2]
    exact k.depthAfter hc d hd
  | .loop c s k, d, hd => by
    have h1 := s.depthAfter hc (d + b) (add_nonneg hd hc.b_pos)
    rw [Script.items, Nsh.depthAfter, Item.kw, hc.while_, Option.bind_some, Nsh.depthAfter, Item.kw, hc.do_, Option.bind_some,
      depthAfter_append, h1, Option.bind_some, Nsh.depthAfter, Item.kw, hc.done d hd]
    exact k.depthAfter hc d hd
  | .each v ws s k, d, hd => by
    have h1 := s.depthAfter hc (d + b) (add_nonneg hd hc.b_pos)
    rw [Script.items, Nsh.depthAfter, Item.kw, hc.for_, Option.bind_some, Nsh.depthAfter, Item.kw, hc.do_, Option.bind_some,
      depthAfter_append, h1, Option.bind_some, Nsh.depthAfter, Item.kw, hc.done d hd]
    exact k.depthAfter hc d hd
theorem Tail.depthAfter {a b : Int} (hc : Counts step a b) : ∀ (t : Tail) (d : Int), 0 ≤ d →
    Nsh.depthAfter step t.items (d + a) = some d
  | .fi, d, hd => by
    rw [Tail.items, Nsh.depthAfter, Item.kw, hc.fi d hd]
    rfl
  | .els s, d, hd => by
    have h1 := s.depthAfter hc (d + a) (add_nonneg hd hc.a_pos)
    rw [Tail.items, Nsh.depthAfter, Item.kw, hc.else_ d hd, Option.bind_some, depthAfter_append, h1, Option.bind_some,
      Nsh.depthAfter, Item.kw, hc.fi d hd]
    rfl
  | .elif c s t, d, hd => by
    have h1 := s.depthAfter hc (d + a) (add_nonneg hd hc.a_pos)
    rw [Tail.items, Nsh.depthAfter, Item.kw, hc.elif d hd, Option.bind_some, Nsh.depthAfter, Item.kw, hc.then_, Option.bind_some,
      depthAfter_append, h1, Option.bind_some]
    exact t.depthAfter hc d hd
end

def Tail.front : Tail → List Item
  | .fi => []
  | .els b => .bare .kElse :: b.items
  | .elif c b t => .cond .kElif c :: .bare .kThen :: (b.items ++ t.front)

theorem Tail.items_eq : ∀ t : Tail, t.items = t.front ++ [.bare .kFi]
  | .fi => rfl
  | .els b => rfl
  | .elif c b t => by
    rw [Tail.items, t.items_eq, Tail.front, cons_append, cons_append, append_assoc]

theorem Tail.depthAfter_front : ∀ t : Tail, Nsh.depthAfter (findEndStep .kIf .kFi) t.front 0 = some 0
  | .fi => rfl
  | .els b => b.depthAfter findEndStep_counts 0 le_rfl
  | .elif c b t => by
    have h := b.depthAfter findEndStep_counts 0 le_rfl
    refine (depthAfter_append t.front b.items 0).trans ?_
    rw [h]
    exact t.depthAfter_front

variable {i upto : Nat}

theorem findKw_next {it : Item} {kw : Keyword} (h : Shows (sb i) it) (hk : it.kw = some kw) (hi : i < upto) :
    findKw sb kw i upto = i := by
  obtain ⟨n, hn⟩ : ∃ n, upto - i = n + 1 := ⟨upto - i - 1, by omega⟩
  rw [findKw, hn, scanFrom, if_pos (by rw [h.isKw, hk]; exact decide_eq_true rfl)]

theorem findEnd_ite {b : Script} {t : Tail} (h : Lay sb i (.bare .kThen :: (b.items ++ t.items)))
    (hi : i + 1 + b.items.length + t.items.length ≤ upto) :
    findEnd sb i upto .kIf .kFi = i + 1 + b.items.length + t.front.length := by
  have hlen : t.items.length = t.front.length + 1 := by rw [t.items_eq, length_append]; rfl
  set r := b.items ++ t.front
  have hits : Item.bare .kThen :: (b.items ++ t.items) = (.bare .kThen :: r) ++ [.bare .kFi] := by
    rw [t.items_eq, cons_append, append_assoc]
  rw [hits, lay_append] at h
  have hd : depthAfter (findEndStep .kIf .kFi) (.bare .kThen :: r) 0 = some 0 := by
    refine (depthAfter_append t.front b.items 0).trans ?_
    rw [b.depthAfter findEndStep_counts 0 le_rfl]
    exact t.depthAfter_front
  have hl : (Item.bare .kThen :: r).length = 1 + b.items.length + t.front.length := by
    rw [length_cons, length_append]
    omega
  obtain ⟨n, hn⟩ : ∃ n, upto - i = (Item.bare .kThen :: r).length + (n + 1) :=
    ⟨upto - i - (1 + b.items.length + t.front.length) - 1, by omega⟩
  rw [findEnd, hn, scanFrom_passes h.1 hd, scanFrom_stops h.2.1 rfl, hl]
  omega

theorem findElse_ite {b : Script} {t : Tail} (h : Lay sb i (b.items ++ t.items)) :
    findElse sb i (i + b.items.length + t.front.length) = if t.front = [] then none else some (i + b.items.length) := by
  obtain ⟨hb, ht⟩ := lay_append.1 h
  have hn : i + b.items.length + t.front.length - i = b.items.length + t.front.length := by omega
  rw [findElse, hn, scanFrom_passes hb (b.depthAfter elseStep_counts 0 le_rfl)]
  cases t with
  | fi =>
    simp only [Tail.front, length_nil, add_zero, scanFrom, lt_irrefl, if_false, if_true]
  | els s =>
    have h0 : Shows (sb (i + b.items.length)) (.bare .kElse) := ht.1
    have hs : scanFrom sb (fun d t => elseStep d (isKw t)) (Tail.els s).front.length (i + b.items.length) 0 =
        i + b.items.length := scanFrom_stops h0 rfl
    simp only [hs]
    rw [if_pos (by simp only [Tail.front, length_cons]; omega), if_neg (by rw [Tail.front]; exact cons_ne_nil _ _)]
  | elif c s t =>
    have h0 : Shows (sb (i + b.items.length)) (.cond .kElif c) := ht.1
    have hs : scanFrom sb (fun d t => elseStep d (isKw t)) (Tail.elif c s t).front.length (i + b.items.length) 0 =
        i + b.items.length := scanFrom_stops h0 rfl
    simp only [hs]
    rw [if_pos (by simp only [Tail.front, length_cons]; omega), if_neg (by rw [Tail.front]; exact cons_ne_nil _ _)]

theorem findDone_loop {b : Script} {its : List Item} (h : Lay sb i (.bare .kDo :: (b.items ++ .bare .kDone :: its)))
    (hi : i + 1 + b.items.length < upto) : findDone sb i upto = i + 1 + b.items.length := by
  have hits : Item.bare .kDo :: (b.items ++ .bare .kDone :: its) = (.bare .kDo :: b.items) ++ .bare .kDone :: its := rfl
  rw [hits, lay_append] at h
  have hd : depthAfter findDoneStep (.bare .kDo :: b.items) 0 = some 0 := b.depthAfter findDoneStep_counts 0 le_rfl
  obtain ⟨n, hn⟩ : ∃ n, upto - i = (Item.bare .kDo :: b.items).length + (n + 1) :=
    ⟨upto - i - (1 + b.items.length) - 1, by rw [length_cons]; omega⟩
  rw [findDone, hn, scanFrom_passes h.1 hd, scanFrom_stops h.2.1 rfl, length_cons]
  omega

end Scans

/-! ## What one line does -/

section Steps

variable {sb : Sb} {i upto : Nat}

theorem settles_end (s : Sh) (h : upto ≤ i) : Settles (fun n => execBlock n i upto s) (.ret s) :=
  (Settles.const _).succ fun n => by rw [execBlock, if_pos h]

theorem execBlock_cmd {c : Command} (n : Nat) (s : Sh) (hi : i < upto) (h : Shows (s.sb i) (.cmd c)) :
    execBlock (n + 1) i upto s =
      (s.exec1 c.text).bind fun x => execBlock n (i + 1) upto { x.2 with io := { x.2.io with last := x.1 } } := by
  rw [execBlock, if_neg (not_le.2 hi), if_neg h.not_skipped]
  simp only [isInner, h.isKw_eq, tests, Item.kw, reduceCtorEq, decide_false, Bool.false_eq_true, Bool.or_self, if_false]
  rw [show s.sb i = c.text from h]

def elseBranch (n fiI : Nat) (elseI : Option Nat) (s : Sh) : Outcome (List Event) Sh :=
  match elseI with
  | none => .ret s
  | some e =>
    if isKw (s.sb e) .kElif then (execBlock n e (fiI + 1) (s.setLine e (elifLine (s.sb e)))).map fun s' => s'.setLine e (s.sb e)
    else execBlock n (e + 1) fiI s

section

variable (n : Nat) (s : Sh) (hi : i < upto)
include n s hi

theorem execBlock_if {c : Cond} (h : Shows (s.sb i) (.cond .kIf c)) (hlen : (s.sb i).length ≤ 250) {thenI fiI : Nat}
    {elseI : Option Nat} (hthen : findKw s.sb .kThen (i + 1) upto = thenI) (hfi : findEnd s.sb (i + 1) upto .kIf .kFi = fiI)
    (helse : findElse s.sb (thenI + 1) fiI = elseI) : execBlock (n + 1) i upto s = (s.exec1 c.text).bind fun x =>
    (if x.1 = 0 then execBlock n (thenI + 1) (elseI.getD fiI) x.2 else elseBranch n fiI elseI x.2).bind
    (execBlock n (fiI + 1) upto) := by
  subst hthen hfi helse
  rw [execBlock, if_neg (not_le.2 hi), if_neg h.not_skipped]
  simp only [h.isKw, Item.kw, decide_true, if_true, h.afterKw hlen, Option.some_inj, reduceCtorEq, decide_false, Bool.false_eq_true,
    if_false]
  rfl

theorem execBlock_while {c : Cond} (h : Shows (s.sb i) (.cond .kWhile c)) (hlen : (s.sb i).length ≤ 250) :
    execBlock (n + 1) i upto s = (whileLoop (fun s => (s.exec1 c.text).map fun x => (x.1 == 0, x.2))
    (execBlock n (findKw s.sb .kDo (i + 1) upto + 1) (findDone s.sb (i + 1) upto)) n s).bind
    (execBlock n (findDone s.sb (i + 1) upto + 1) upto) := by
  rw [execBlock, if_neg (not_le.2 hi), if_neg h.not_skipped]
  simp only [h.isKw, Item.kw, decide_true, if_true, h.afterKw hlen, Option.some_inj, reduceCtorEq, decide_false, Bool.false_eq_true,
    if_false]

theorem execBlock_for {v : Var} {ws : Words} (h : Shows (s.sb i) (.forIn v ws)) (hv : v.text.length ≤ 31) :
    execBlock (n + 1) i upto s = (forLoop (fun val s' => execBlock n (findKw s.sb .kDo (i + 1) upto + 1)
    (findDone s.sb (i + 1) upto) { s' with io := s'.io.emit (.setenv v.text val) }) (ws.1.map Word.text) s).bind
        (execBlock n (findDone s.sb (i + 1) upto + 1) upto) := by
  rw [execBlock, if_neg (not_le.2 hi), if_neg h.not_skipped]
  simp only [h.isKw, Item.kw, decide_true, if_true, h.forHead hv, Option.some_inj, reduceCtorEq, decide_false, Bool.false_eq_true,
    if_false]

end

end Steps

/-! ## Statuses are used up -/

def Io.Later (io io' : Io) : Prop := io'.statuses.length ≤ io.statuses.length

theorem Io.Later.refl (io : Io) : io.Later io := le_refl _

theorem Io.Later.trans {io io' io'' : Io} (h : io.Later io') (h' : io'.Later io'') : io.Later io'' := le_trans h' h

theorem Io.exec1_lt {io : Io} {c : Text} {x : Int × Io} (h : io.exec1 c = .ret x) :
    x.2.statuses.length < io.statuses.length := by
  unfold Io.exec1 at h
  split at h
  · cases h
  · rename_i hs
    cases h
    simp [hs]

theorem Io.test_lt {io : Io} {c : Text} {x : Bool × Io} (h : io.test c = .ret x) :
    x.2.statuses.length < io.statuses.length := by
  obtain ⟨y, hy, hx⟩ := bind_eq_ret h
  cases hx
  exact Io.exec1_lt hy

mutual
theorem Script.eval_later : ∀ (s : Script) (io io' : Io), s.eval io = .ret io' → io.Later io'
  | .nil, io, io', h => by
    cases h
    exact .refl io
  | .cmd c k, io, io', h => by
    obtain ⟨x, hx, h⟩ := bind_eq_ret h
    exact Io.Later.trans (le_of_lt (Io.exec1_lt hx)) (k.eval_later { x.2 with last := x.1 } io' h)
  | .ite c b t k, io, io', h => by
    obtain ⟨io1, h1, h⟩ := bind_eq_ret h
    obtain ⟨x, hx, h1⟩ := bind_eq_ret h1
    refine Io.Later.trans (le_of_lt (Io.exec1_lt hx)) (Io.Later.trans ?_ (k.eval_later io1 io' h))
    split at h1
    · exact b.eval_later _ _ h1
    · exact t.eval_later _ _ h1
  | .loop c b k, io, io', h => by
    obtain ⟨io1, h1, h⟩ := bind_eq_ret h
    refine Io.Later.trans ?_ (k.eval_later io1 io' h)
    exact whileLoop_keeps (R := Io.Later) .refl .trans (fun _ _ ht => le_of_lt (Io.test_lt ht)) b.eval_later _ _ _ h1
  | .each v ws b k, io, io', h => by
    obtain ⟨io1, h1, h⟩ := bind_eq_ret h
    refine Io.Later.trans ?_ (k.eval_later io1 io' h)
    exact forLoop_keeps (R := Io.Later) .refl .trans (fun w io io' hb => b.eval_later (io.emit _) io' hb) _ _ _ h1
theorem Tail.eval_later : ∀ (t : Tail) (io io' : Io), t.eval io = .ret io' → io.Later io'
  | .fi, io, io', h => by
    cases h
    exact .refl io
  | .els b, io, io', h => b.eval_later io io' h
  | .elif c b t, io, io', h => by
    obtain ⟨x, hx, h⟩ := bind_eq_ret h
    refine Io.Later.trans (le_of_lt (Io.exec1_lt hx)) ?_
    split at h
    · exact b.eval_later _ _ h
    · exact t.eval_later _ _ h
end

theorem Io.exec1_ne_timeout (io : Io) (c : Text) : io.exec1 c ≠ .timeout := by
  unfold Io.exec1
  split <;> exact fun h => by cases h

mutual
theorem Script.eval_ne_timeout : ∀ (s : Script) (io : Io), s.eval io ≠ .timeout
  | .nil, _ => fun h => by cases h
  | .cmd c k, io => bind_ne_timeout (io.exec1_ne_timeout c.text) fun x _ => k.eval_ne_timeout { x.2 with last := x.1 }
  | .ite c b t k, io => by
    refine bind_ne_timeout (bind_ne_timeout (io.exec1_ne_timeout c.text) fun x _ => ?_) fun io' _ => k.eval_ne_timeout io'
    split
    · exact b.eval_ne_timeout x.2
    · exact t.eval_ne_timeout x.2
  | .loop c b k, io => by
    refine bind_ne_timeout ?_ fun io' _ => k.eval_ne_timeout io'
    refine whileLoop_ne_timeout (fun io : Io => io.statuses.length) (fun io => ?_) b.eval_ne_timeout (fun _ _ => Io.test_lt)
      b.eval_later _ _ (Nat.lt_succ_self _)
    exact bind_ne_timeout (io.exec1_ne_timeout c.text) fun _ _ h => by cases h
  | .each v ws b k, io =>
    bind_ne_timeout (forLoop_ne_timeout (fun w io => b.eval_ne_timeout (io.emit (.setenv v.text w.text))) ws.1 io)
      fun io' _ => k.eval_ne_timeout io'
theorem Tail.eval_ne_timeout : ∀ (t : Tail) (io : Io), t.eval io ≠ .timeout
  | .fi, _ => fun h => by cases h
  | .els b, io => b.eval_ne_timeout io
  | .elif c b t, io => by
    refine bind_ne_timeout (io.exec1_ne_timeout c.text) fun x _ => ?_
    split
    · exact b.eval_ne_timeout x.2
    · exact t.eval_ne_timeout x.2
end

/-! ## Running a script -/

mutual
/-- The variables of the `for` loops fit the buffer `exec_block` has for them. -/
def Script.VarsFit : Script → Prop
  | .nil => True
  | .cmd _ k => k.VarsFit
  | .ite _ b t k => b.VarsFit ∧ t.VarsFit ∧ k.VarsFit
  | .loop _ b k => b.VarsFit ∧ k.VarsFit
  | .each v _ b k => v.text.length ≤ 31 ∧ b.VarsFit ∧ k.VarsFit
def Tail.VarsFit : Tail → Prop
  | .fi => True
  | .els b => b.VarsFit
  | .elif _ b t => b.VarsFit ∧ t.VarsFit
end

/-- From the first line of the script on, `exec_block` does what the script means and then goes on after its last line. -/
def Script.Runs (s : Script) : Prop :=
  ∀ (sb : Sb) (i upto : Nat), Lay sb i s.items → i + s.items.length ≤ upto → ∀ K : Io → Outcome (List Event) Sh,
    (∀ io, Settles (fun n => execBlock n (i + s.items.length) upto ⟨sb, io⟩) (K io)) →
    ∀ io, Settles (fun n => execBlock n i upto ⟨sb, io⟩) ((s.eval io).bind K)

theorem Script.Runs.block {s : Script} (h : s.Runs) {sb : Sb} {i upto : Nat} (hl : Lay sb i s.items)
    (hu : upto = i + s.items.length) (io : Io) : Settles (fun n => execBlock n i upto ⟨sb, io⟩) ((s.eval io).map (Sh.mk sb)) :=
  h sb i upto hl (le_of_eq hu.symm) (fun io => .ret ⟨sb, io⟩) (fun _ => settles_end _ (le_of_eq hu)) io

theorem settles_exec1 (sb : Sb) (io : Io) (c : Text) :
    Settles (fun _ => (Sh.mk sb io).exec1 c) ((io.exec1 c).map fun x => (x.1, ⟨sb, x.2⟩)) := const _

/-- An `if` whose branches run, with the rest `t` of it: `Tail.RunsIf` is what an `elif` is turned into. -/
def Tail.RunsIf (t : Tail) : Prop :=
  ∀ (c : Cond) (b : Script), b.Runs → ∀ (sb : Sb) (i upto : Nat),
    Lay sb i (.cond .kIf c :: .bare .kThen :: (b.items ++ t.items)) → i + 2 + b.items.length + t.items.length ≤ upto →
    ∀ K : Io → Outcome (List Event) Sh,
    (∀ io, Settles (fun n => execBlock n (i + 2 + b.items.length + t.items.length) upto ⟨sb, io⟩) (K io)) →
    ∀ io, Settles (fun n => execBlock n i upto ⟨sb, io⟩)
      (((io.exec1 c.text).bind fun x => if x.1 = 0 then b.eval x.2 else t.eval x.2).bind K)

/-- **The step for `if`**: its first branch runs, and so does what the code does with the rest. -/
theorem Tail.runsIf_of {t : Tail} (ht : ∀ (sb : Sb) (e : Nat), Lay sb e t.items → ∀ io,
      Settles (fun n => elseBranch n (e + t.front.length) (if t.front = [] then none else some e) ⟨sb, io⟩)
        ((t.eval io).map (Sh.mk sb))) : t.RunsIf := by
  intro c b hb sb i upto hl hu K hK io
  obtain ⟨h1, hlen, h2⟩ := hl
  have hlen' : t.items.length = t.front.length + 1 := by rw [t.items_eq, length_append]; rfl
  have hfi : findEnd sb (i + 1) upto .kIf .kFi = i + 1 + 1 + b.items.length + t.front.length := findEnd_ite h2 (by omega)
  have hthen : findKw sb .kThen (i + 1) upto = i + 1 := findKw_next h2.1 rfl (by omega)
  have helse := findElse_ite h2.2.2
  obtain ⟨hlb, hlt⟩ := lay_append.1 h2.2.2
  set r := i + 2 + b.items.length
  have hgetD : (if t.front = [] then none else some r).getD
      (i + 2 + b.items.length + t.front.length) = i + 2 + b.items.length := by
    split
    · rename_i hnil
      rw [hnil]
      rfl
    · rfl
  have hstep : ∀ n, execBlock (n + 1) i upto ⟨sb, io⟩ = ((Sh.mk sb io).exec1 c.text).bind fun x =>
      (if x.1 = 0 then execBlock n (i + 2) r x.2
        else elseBranch n (i + 2 + b.items.length + t.front.length)
          (if t.front = [] then none else some r) x.2).bind
        (execBlock n (i + 2 + b.items.length + t.items.length) upto) := fun n => by
    rw [execBlock_if n ⟨sb, io⟩ (by omega) h1 hlen hthen hfi helse, hgetD, hlen']
    rfl
  refine succ ?_ hstep
  rw [bind_assoc]
  refine (settles_exec1 sb io c.text).bind fun x _ => ?_
  by_cases h0 : x.1 = 0
  · simp only [h0, if_true]
    exact (hb.block hlb rfl x.2).bind fun io' _ => hK io'
  · simp only [h0, if_false]
    exact (ht sb _ hlt x.2).bind fun io' _ => hK io'

theorem lay_update {sb : Sb} {j : Nat} {x : Text} : ∀ {its : List Item} {i : Nat}, Lay sb i its → j < i →
    Lay (update sb j x) i its
  | [], _, _, _ => trivial
  | it :: its, i, ⟨h1, h2, h3⟩, hj => by
    refine ⟨?_, ?_, lay_update h3 (by omega)⟩ <;> rw [update_of_ne (by omega)]
    · exact h1
    · exact h2

theorem Tail.settles_elif {c : Cond} {b : Script} {t : Tail} (hb : b.Runs) (ht : t.RunsIf) (sb : Sb) (e : Nat)
    (hl : Lay sb e (Tail.elif c b t).items) (io : Io) :
    Settles (fun n => elseBranch n (e + (Tail.elif c b t).front.length) (some e) ⟨sb, io⟩)
      (((Tail.elif c b t).eval io).map (Sh.mk sb)) := by
  obtain ⟨h1, hlen, h2⟩ := hl
  obtain ⟨h3, h4⟩ := h1.elifLine hlen
  have hkw : isKw (sb e) .kElif = true := by rw [h1.isKw]; rfl
  have hlen' : t.items.length = t.front.length + 1 := by rw [t.items_eq, length_append]; rfl
  have hend : e + (Tail.elif c b t).front.length + 1 = e + 2 + b.items.length + t.items.length := by
    simp only [Tail.front, length_cons, length_append]
    omega
  have hlay : Lay (update sb e (elifLine (sb e))) e (.cond .kIf c :: .bare .kThen :: (b.items ++ t.items)) := by
    refine ⟨?_, ?_, lay_update h2 (by omega)⟩ <;> rw [update_self]
    · exact h3
    · exact h4
  have hrun := ht c b hb _ e _ hlay (le_of_eq hend.symm) (fun io' => .ret ⟨_, io'⟩)
    (fun io' => settles_end _ (le_of_eq hend)) io
  have hback : ∀ io', (Sh.mk (update sb e (elifLine (sb e))) io').setLine e (sb e) = ⟨sb, io'⟩ := fun io' => by
    simp only [Sh.setLine, update_idem, Function.update_eq_self]
  refine congr (f := fun n => (execBlock n e (e + (Tail.elif c b t).front.length + 1)
    ⟨update sb e (elifLine (sb e)), io⟩).map fun s => s.setLine e (sb e)) ?_ (fun n => ?_)
  · exact hrun.bind (e := fun io' => Sh.mk _ io') fun io' _ => hback io' ▸ const _
  · simp only [elseBranch, hkw, if_true]
    rfl

theorem settles_while (sb : Sb) (c : Text) {body : Nat → Sh → Outcome (List Event) Sh} {meaning : Io → Outcome (List Event) Io}
    (hbody : ∀ t, Settles (fun n => body n ⟨sb, t⟩) ((meaning t).map (Sh.mk sb)))
    (hlater : ∀ io io', meaning io = .ret io' → io.Later io') (io : Io) :
    Settles (fun n => whileLoop (fun s => (s.exec1 c).map fun x => (x.1 == 0, x.2)) (body n) n ⟨sb, io⟩)
      ((whileLoop (fun io => io.test c) meaning (io.statuses.length + 1) io).map (Sh.mk sb)) := by
  have htest : ∀ t, ((Sh.mk sb t).exec1 c).map (fun x => (x.1 == 0, x.2)) = (t.test c).map fun x => (x.1, Sh.mk sb x.2) := by
    intro t
    simp only [Sh.exec1, Io.test]
    cases t.exec1 c <;> rfl
  exact Settles.whileLoop (fun io : Io => io.statuses.length) htest hbody (fun _ _ => Io.test_lt) hlater io

mutual
/-- **Every script runs as it means**, as long as its variables fit. -/
theorem Script.runs : ∀ s : Script, s.VarsFit → s.Runs
  | .nil, _ => fun sb i upto _ _ K hK io => hK io
  | .cmd c k, hv => fun sb i upto hl hu K hK io => by
    have hlen : (Script.cmd c k).items.length = k.items.length + 1 := rfl
    have hidx : i + (Script.cmd c k).items.length = i + 1 + k.items.length := by omega
    rw [hidx] at hK hu
    refine Settles.succ ?_ fun n => execBlock_cmd n ⟨sb, io⟩ (by omega) hl.1
    rw [Script.eval, bind_assoc]
    exact (settles_exec1 sb io c.text).bind fun x _ => k.runs hv sb (i + 1) upto hl.2.2 hu K hK { x.2 with last := x.1 }
  | .ite c b t k, hv => fun sb i upto hl hu K hK io => by
    have hits : (Script.ite c b t k).items = (.cond .kIf c :: .bare .kThen :: (b.items ++ t.items)) ++ k.items := by
      rw [Script.items, cons_append, cons_append, append_assoc]
    have hlen : (Item.cond .kIf c :: Item.bare .kThen :: (b.items ++ t.items)).length = 2 + b.items.length + t.items.length := by
      simp only [length_cons, length_append]
      omega
    have hidx : i + (Script.ite c b t k).items.length = i + 2 + b.items.length + t.items.length + k.items.length := by
      rw [hits, length_append, hlen]
      omega
    rw [hits] at hl
    rw [hidx] at hK hu
    obtain ⟨h1, h2⟩ := lay_append.1 hl
    have he : i + (2 + b.items.length + t.items.length) = i + 2 + b.items.length + t.items.length := by omega
    rw [hlen, he] at h2
    rw [Script.eval, bind_assoc]
    exact t.runsIf hv.2.1 c b (b.runs hv.1) sb i upto h1 (by omega) (fun io => (k.eval io).bind K)
      (fun io => k.runs hv.2.2 sb _ upto h2 hu K hK io) io
  | .loop c b k, hv => fun sb i upto hl hu K hK io => by
    obtain ⟨h1, hlen, h2⟩ := hl
    obtain ⟨hb, hk⟩ := lay_append.1 h2.2.2
    have hidx : i + (Script.loop c b k).items.length = i + 2 + b.items.length + 1 + k.items.length := by
      simp only [Script.items, length_cons, length_append]
      omega
    rw [hidx] at hK hu
    have hdo : findKw sb .kDo (i + 1) upto = i + 1 := findKw_next h2.1 rfl (by omega)
    have hdone : findDone sb (i + 1) upto = i + 1 + 1 + b.items.length := findDone_loop h2 (by omega)
    refine Settles.succ ?_ fun n => execBlock_while n ⟨sb, io⟩ (by omega) h1 hlen
    simp only [hdo, hdone]
    rw [Script.eval, bind_assoc]
    refine (settles_while sb c.text (fun t => (b.runs hv.1).block hb rfl t) b.eval_later io).bind fun io' _ => ?_
    exact k.runs hv.2 sb _ upto hk.2.2 hu K hK io'
  | .each v ws b k, hv => fun sb i upto hl hu K hK io => by
    obtain ⟨h1, hlen, h2⟩ := hl
    obtain ⟨hb, hk⟩ := lay_append.1 h2.2.2
    have hidx : i + (Script.each v ws b k).items.length = i + 2 + b.items.length + 1 + k.items.length := by
      simp only [Script.items, length_cons, length_append]
      omega
    rw [hidx] at hK hu
    have hdo : findKw sb .kDo (i + 1) upto = i + 1 := findKw_next h2.1 rfl (by omega)
    have hdone : findDone sb (i + 1) upto = i + 1 + 1 + b.items.length := findDone_loop h2 (by omega)
    refine Settles.succ ?_ fun n => execBlock_for n ⟨sb, io⟩ (by omega) h1 hv.1
    simp only [hdo, hdone, forLoop_map]
    rw [Script.eval, bind_assoc]
    refine (Settles.forLoop (fun w t => (b.runs hv.2.1).block hb rfl (t.emit (.setenv v.text w.text))) ws.1 io).bind fun io' _ => ?_
    exact k.runs hv.2.2 sb _ upto hk.2.2 hu K hK io'
theorem Tail.runsIf : ∀ t : Tail, t.VarsFit → t.RunsIf
  | .fi, _ => Tail.runsIf_of fun sb e _ io => const _
  | .els b, hv => Tail.runsIf_of fun sb e hl io => by
    obtain ⟨h1, -, h2⟩ := hl
    have hkw : isKw (sb e) .kElif = false := by rw [h1.isKw]; rfl
    refine ((b.runs hv).block (lay_append.1 h2).1 rfl io).congr fun n => ?_
    simp only [Tail.front, cons_ne_nil, if_false, elseBranch, hkw, Bool.false_eq_true, length_cons]
    congr 1
    omega
  | .elif c b t, hv => Tail.runsIf_of fun sb e hl io => by
    have h := Tail.settles_elif (b.runs hv.1) (t.runsIf hv.2) sb e hl io
    exact h.congr fun n => by rw [if_neg (by rw [Tail.front]; exact cons_ne_nil _ _)]
end

/-- **Shell control flow is executed as written.**  Whatever the statuses, `exec_block` over the lines of a script does exactly
what the script means: it ends where the meaning ends, having run the same commands and set the same variables, with the
line buffer as it was, and it waits for a status where the meaning does, having issued the same. -/
theorem execBlock_eval (s : Script) (hv : s.VarsFit) (sb : Sb) (hl : Lay sb 0 s.items) (io : Io) :
    s.eval io ≠ .timeout ∧ Settles (fun n => execBlock n 0 s.items.length ⟨sb, io⟩) ((s.eval io).map (Sh.mk sb)) :=
  ⟨s.eval_ne_timeout io, (s.runs hv).block hl (zero_add _).symm io⟩

section Scripts

def falseCond : Cond where
  text := ['f', 'a', 'l', 's', 'e']
  clean := ⟨by decide, by decide, by decide, fun kw => by cases kw <;> decide⟩
  tightLeft := by decide
  tightRight := by decide

def pwd : Command where
  text := [' ', 'p', 'w', 'd']
  clean := ⟨by decide, by decide, by decide, fun kw => by cases kw <;> decide⟩

def elifScript : Script := .ite falseCond .nil (.elif falseCond (.cmd pwd .nil) .fi) .nil

def elifSb : Sb
  | 0 => ['i', 'f', ' ', 'f', 'a', 'l', 's', 'e']
  | 1 => ['t', 'h', 'e', 'n']
  | 2 => ['e', 'l', 'i', 'f', ' ', 'f', 'a', 'l', 's', 'e']
  | 3 => ['t', 'h', 'e', 'n']
  | 4 => [' ', 'p', 'w', 'd']
  | 5 => ['f', 'i']
  | _ => []

theorem elifSb_lay : Lay elifSb 0 elifScript.items := by
  have hnil : Blanks [] := fun _ h => absurd h not_mem_nil
  have hsp : Blanks [' '] := fun c h => by rw [mem_singleton.1 h]; rfl
  exact ⟨⟨[], [' '], [], rfl, hnil, hsp, cons_ne_nil _ _, hnil⟩, by decide, ⟨[], [], rfl, hnil, hnil⟩, by decide,
    ⟨[], [' '], [], rfl, hnil, hsp, cons_ne_nil _ _, hnil⟩, by decide, ⟨[], [], rfl, hnil, hnil⟩, by decide, rfl, by decide,
    ⟨[], [], rfl, hnil, hnil⟩, by decide, trivial⟩

/-- The first condition fails, the second succeeds. -/
theorem execBlock_eval_elif : Settles (fun n => execBlock n 0 6 ⟨elifSb, ⟨[1, 0, 7], [], 0⟩⟩)
      (.ret ⟨elifSb, ⟨[], [.exec1 falseCond.text, .exec1 falseCond.text, .exec1 pwd.text], 7⟩⟩) :=
  (execBlock_eval elifScript ⟨trivial, ⟨trivial, trivial⟩, trivial⟩ elifSb elifSb_lay ⟨[1, 0, 7], [], 0⟩).2

def longVar : Var where
  text := List.replicate 32 'a'
  nonempty := by decide
  plain := fun h => absurd (eq_of_mem_replicate h) (by decide)

def wordX : Word where
  text := ['x']
  nonempty := by decide
  plain := by simp
  short := by decide

def longFor : Script := .each longVar ⟨[wordX], by decide⟩ (.cmd pwd .nil) .nil

def longSb : Sb
  | 0 => ['f', 'o', 'r', ' '] ++ List.replicate 32 'a' ++ [' ', 'i', 'n', ' ', 'x']
  | 1 => ['d', 'o']
  | 2 => [' ', 'p', 'w', 'd']
  | 3 => ['d', 'o', 'n', 'e']
  | _ => []

theorem longSb_lay : Lay longSb 0 longFor.items := by
  have hnil : Blanks [] := fun _ h => absurd h not_mem_nil
  have hsp : Spaces [' '] := fun c h => mem_singleton.1 h
  refine ⟨⟨[], [' '], [' '], [' ', 'x'], rfl, hnil, hsp, cons_ne_nil _ _, hsp, cons_ne_nil _ _, ?_⟩, by decide,
    ⟨[], [], rfl, hnil, hnil⟩, by decide, rfl, by decide, ⟨[], [], rfl, hnil, hnil⟩, by decide, trivial⟩
  exact ⟨[' '], [], rfl, hsp, cons_ne_nil _ _, fun _ h => absurd h not_mem_nil⟩

theorem longSb_runs : Settles (fun n => execBlock n 0 4 ⟨longSb, ⟨[], [], 0⟩⟩)
    (.waiting [.setenv (replicate 31 'a') ['a'], .exec1 pwd.text]) := by
  refine ⟨4, fun n hn => ?_⟩
  obtain ⟨m, rfl⟩ : ∃ m, n = m + 4 := ⟨n - 4, by omega⟩
  rfl

/-- **The variable of a `for` is cut at 31 characters and the rest of it is taken for the list.** -/
theorem execBlock_cuts_variable : Lay longSb 0 longFor.items ∧
    longFor.eval ⟨[], [], 0⟩ = .waiting [.setenv (List.replicate 32 'a') ['x'], .exec1 pwd.text] ∧
    ¬ Settles (fun n => execBlock n 0 longFor.items.length ⟨longSb, ⟨[], [], 0⟩⟩)
      ((longFor.eval ⟨[], [], 0⟩).map (Sh.mk longSb)) := by
  refine ⟨longSb_lay, rfl, fun h => ?_⟩
  have heq := unique longSb_runs h
  have hev : longFor.eval ⟨[], [], 0⟩ = .waiting [.setenv (replicate 32 'a') ['x'], .exec1 pwd.text] := rfl
  rw [hev, map_waiting, Outcome.waiting.injEq, cons.injEq, Event.setenv.injEq] at heq
  exact absurd (congrArg length heq.1.1) (by decide)

end Scripts

end Nsh
end Noxis
