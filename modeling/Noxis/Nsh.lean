import Noxis.Fuel
/-!
# Nsh — the shell's control flow (`bin/nsh/nsh.c`)

The shell holds a compound command as lines of text in the buffer `sb` and finds its structure again each time it runs it:
`exec_block` looks at the first word of a line and scans forward, counting nested openers, for the lines that belong to it.
An `elif` is run by overwriting its line with an `if` for the time of a nested call.

A line is a C string, a list of characters without the `NUL`.  `exec1`, which runs one simple command, is the environment: it
answers the statuses of a list given in advance, and a run that asks for more than the list holds waits.  What the run does is
the list of its events: the commands it ran and the variables it set.
-/
namespace Noxis
namespace Nsh

open Outcome

abbrev Text := List Char

def nul : Char := '\x00'

abbrev Sb := Nat → Text

/-! ## Words -/

def isBlank (c : Char) : Bool := c == ' ' || c == '\t'

def trim (t : Text) : Text := t.dropWhile isBlank

inductive Keyword where
  | kIf | kThen | kElif | kElse | kFi | kWhile | kFor | kDo | kDone
  deriving DecidableEq, Repr

def Keyword.text : Keyword → Text
  | .kIf => ['i', 'f']
  | .kThen => ['t', 'h', 'e', 'n']
  | .kElif => ['e', 'l', 'i', 'f']
  | .kElse => ['e', 'l', 's', 'e']
  | .kFi => ['f', 'i']
  | .kWhile => ['w', 'h', 'i', 'l', 'e']
  | .kFor => ['f', 'o', 'r']
  | .kDo => ['d', 'o']
  | .kDone => ['d', 'o', 'n', 'e']

/-- `is_kw`: the first token of the line is exactly the keyword. -/
def isKw (line : Text) (kw : Keyword) : Bool :=
  (trim line).take kw.text.length == kw.text &&
    match ((trim line).drop kw.text.length).head? with
    | none => true
    | some next => next == ' ' || next == '\t' || next == ';'

/-- `after_kw` into a buffer of `SB_LINE` bytes: the text after the keyword, up to a `;`. -/
def afterKw (line : Text) (kw : Keyword) : Text :=
  let t := ((trim line).drop kw.text.length).dropWhile isBlank
  ((t.takeWhile (· != ';')).take 255).rdropWhile isBlank

/-! ## Looking for lines -/

/-- `for (i = from; i < end; i++)` over the lines with a depth, until `step` stops at one; `n` lines are left. -/
def scanFrom (sb : Sb) (step : Int → Text → Option Int) : Nat → Nat → Int → Nat
  | 0, i, _ => i
  | n + 1, i, d =>
    match step d (sb i) with
    | none => i
    | some d' => scanFrom sb step n (i + 1) d'

/-- A closing keyword at depth 0 stops; `tests` says which keywords the line starts with. -/
def closeStep (opens closes : (Keyword → Bool) → Bool) (d : Int) (tests : Keyword → Bool) : Option Int :=
  if opens tests then some (d + 1)
  else if closes tests then (if d = 0 then none else some (d - 1))
  else some d

/-- The scan for `else` and `elif` inside an `if`. -/
def elseStep (d : Int) (tests : Keyword → Bool) : Option Int :=
  if tests .kIf then some (d + 1)
  else if tests .kFi then some (d - 1)
  else if d = 0 && (tests .kElse || tests .kElif) then none
  else some d

def findEndStep (openKw closeKw : Keyword) : Int → (Keyword → Bool) → Option Int :=
  closeStep (fun is => is openKw) (fun is => is closeKw)

def findDoneStep : Int → (Keyword → Bool) → Option Int :=
  closeStep (fun is => is .kWhile || is .kFor) (fun is => is .kDone)

def findEnd (sb : Sb) (start stop : Nat) (openKw closeKw : Keyword) : Nat :=
  scanFrom sb (fun d t => findEndStep openKw closeKw d (isKw t)) (stop - start) start 0

def findDone (sb : Sb) (start stop : Nat) : Nat :=
  scanFrom sb (fun d t => findDoneStep d (isKw t)) (stop - start) start 0

/-- `while (k < to && !is_kw(sb[k], kw)) k++;` -/
def findKw (sb : Sb) (kw : Keyword) (k upto : Nat) : Nat :=
  scanFrom sb (fun d t => if isKw t kw then none else some d) (upto - k) k 0

def findElse (sb : Sb) (j fi : Nat) : Option Nat :=
  let e := scanFrom sb (fun d t => elseStep d (isKw t)) (fi - j) j 0
  if e < fi then some e else none

/-! ## The line of a `for` -/

def skipSpaces (t : Text) : Text := t.dropWhile (· == ' ')

def spanUpTo (p : Char → Bool) : Nat → Text → Text × Text
  | 0, t => ([], t)
  | _ + 1, [] => ([], [])
  | n + 1, c :: t => if p c then (c :: (spanUpTo p n t).1, (spanUpTo p n t).2) else ([], c :: t)

/-- The words of the list, `n` more at most, of 63 characters at most. -/
def forVals : Nat → Text → List Text
  | 0, _ => []
  | n + 1, t =>
    if t = [] ∨ t.head? = some ';' then [] else
    let t := skipSpaces t
    if t = [] ∨ t.head? = some ';' then [] else
    -- the word is not empty: its first character is neither a space nor a `;`
    let w := spanUpTo (fun c => c != ' ' && c != ';') 63 t
    w.1 :: forVals n w.2

def forHead (line : Text) : Text × List Text :=
  let t2 := skipSpaces ((trim line).drop 3)
  let v := spanUpTo (· != ' ') 31 t2
  let t2 := skipSpaces v.2
  let t2 := if t2.take 2 == ['i', 'n'] then t2.drop 2 else t2
  (v.1, forVals 32 (skipSpaces t2))

/-! ## Running -/

inductive Event where
  | exec1 (command : Text)
  | setenv (var val : Text)
  deriving DecidableEq, Repr

/-- What the shell shares with its environment: the statuses `exec1` has yet to answer, what has been done, and
`g_last_status`. -/
structure Io where
  statuses : List Int
  events : List Event
  last : Int
  deriving DecidableEq, Repr

def Io.emit (io : Io) (e : Event) : Io := { io with events := io.events ++ [e] }

/-- `exec1` answers the next status; without one the run waits, its command issued. -/
def Io.exec1 (io : Io) (command : Text) : Outcome (List Event) (Int × Io) :=
  match io.statuses with
  | [] => .waiting (io.emit (.exec1 command)).events
  | r :: rs => .ret (r, { io.emit (.exec1 command) with statuses := rs })

structure Sh where
  sb : Sb
  io : Io

def Sh.exec1 (s : Sh) (command : Text) : Outcome (List Event) (Int × Sh) :=
  (s.io.exec1 command).map fun x => (x.1, { s with io := x.2 })

/-- The line an `elif` is replaced by: `snprintf(elif_line, SB_LINE, "if %s", _trim(line) + 4)`. -/
def elifLine (line : Text) : Text := (['i', 'f', ' '] ++ (trim line).drop 4).take 255

def Sh.setLine (s : Sh) (i : Nat) (t : Text) : Sh := { s with sb := Function.update s.sb i t }

/-- The lines `exec_block` skips where it meets them by themselves. -/
def isInner (t : Text) : Bool :=
  isKw t .kThen || isKw t .kElse || isKw t .kElif || isKw t .kFi || isKw t .kDo || isKw t .kDone

/-- **`exec_block`**, its loop from the line `i` on. -/
def execBlock : Nat → Nat → Nat → Sh → Outcome (List Event) Sh
  | 0, _, _, _ => .timeout
  | fuel + 1, i, upto, s =>
    if upto ≤ i then .ret s
    else if trim (s.sb i) = [] ∨ (trim (s.sb i)).head? = some '#' then execBlock fuel (i + 1) upto s
    else if isKw (s.sb i) .kIf then
      let cond := afterKw (s.sb i) .kIf
      let thenI := if isKw (s.sb i) .kThen then i + 1 else findKw s.sb .kThen (i + 1) upto
      let fiI := findEnd s.sb (i + 1) upto .kIf .kFi
      let elseI := findElse s.sb (thenI + 1) fiI
      (s.exec1 cond).bind fun x =>
        (if x.1 = 0 then execBlock fuel (thenI + 1) (elseI.getD fiI) x.2 else match elseI with
            | none => .ret x.2
            | some e =>
              if isKw (x.2.sb e) .kElif then
                let saved := x.2.sb e
                (execBlock fuel e (fiI + 1) (x.2.setLine e (elifLine saved))).map fun s => s.setLine e saved
              else execBlock fuel (e + 1) fiI x.2).bind (execBlock fuel (fiI + 1) upto)
    else if isKw (s.sb i) .kWhile then
      let cond := afterKw (s.sb i) .kWhile
      let doI := findKw s.sb .kDo (i + 1) upto
      let doneI := findDone s.sb (i + 1) upto
      (whileLoop (fun s => (s.exec1 cond).map fun x => (x.1 == 0, x.2)) (execBlock fuel (doI + 1) doneI) fuel s).bind
        (execBlock fuel (doneI + 1) upto)
    else if isKw (s.sb i) .kFor then
      let head := forHead (s.sb i)
      let doI := findKw s.sb .kDo (i + 1) upto
      let doneI := findDone s.sb (i + 1) upto
      (forLoop (fun val s => execBlock fuel (doI + 1) doneI { s with io := s.io.emit (.setenv head.1 val) }) head.2 s).bind
        (execBlock fuel (doneI + 1) upto)
    else if isInner (s.sb i) then execBlock fuel (i + 1) upto s
    else (s.exec1 (s.sb i)).bind fun x => execBlock fuel (i + 1) upto { x.2 with io := { x.2.io with last := x.1 } }

end Nsh
end Noxis
