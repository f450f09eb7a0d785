import Noxis.NshExec
/-!
# NshCollect — compound commands typed at the prompt (`collect_block`)

The lines of a compound command go to the slots of `sb`, 256 bytes each.  `collect_block` copies the characters of a line and
sets the last byte of the slot, but writes no NUL after the line: what a longer line left there earlier stays, and is read as
part of the new one.  `collect_second_iff` says for which pairs of commands this cannot be seen.
-/
namespace Noxis

open List Function
namespace Nsh

/-! ## The code -/

abbrev Slot := List Char

abbrev Buf := Nat → Slot

def freshBuf : Buf := fun _ => List.replicate 256 nul

/-- The slot as the C string the other functions read. -/
def slotText (b : Slot) : Text := b.takeWhile (· != nul)

/-- `for (j = 0; j < SB_LINE && line[j]; j++) sb[n][j] = line[j]; sb[n][SB_LINE-1] = 0;` -/
def storeLine (b : Slot) (line : Text) : Slot := (line ++ b.drop line.length).set 255 nul

/-- The copy `next_line` makes of what `readline` returns, a line of less than 256 bytes. -/
def heardLine (s : Text) : Text := s.take 254

def isBlankLine (t : Text) : Bool := t.all isBlank

def isOpener (t : Text) : Bool := isKw t .kIf || isKw t .kWhile || isKw t .kFor

/-- The loop of `collect_block`: blank lines are not seen; nothing when the input ends before the block does, or the buffer. -/
def collectLoop (close : Keyword) : List Text → Nat → Int → Buf → Option (Nat × Buf × List Text)
  | [], _, _, _ => none
  | s :: input, n, depth, sb =>
    let got := heardLine s
    if isBlankLine got then collectLoop close input n depth sb
    else if 512 ≤ n then none
    else
      let sb := Function.update sb n (storeLine (sb n) got)
      let t := trim got
      let depth := if isOpener t then depth + 1 else depth
      if isKw t close then
        if depth = 0 then some (n + 1, sb, input) else collectLoop close input (n + 1) (depth - 1) sb
      else collectLoop close input (n + 1) depth sb

def closeKw (firstLine : Text) : Keyword := if isKw firstLine .kIf then .kFi else .kDone

def collectBlock (sb : Buf) (firstLine : Text) (input : List Text) : Option (Nat × Buf × List Text) :=
  collectLoop (closeKw firstLine) input 1 0 (Function.update sb 0 (storeLine (sb 0) firstLine))

/-- The turn of `main` that reads a compound command: the number of lines, the buffer and what has not been read yet. -/
def readCompound (sb : Buf) : List Text → Option (Nat × Buf × List Text)
  | [] => none
  | s :: input =>
    let line := heardLine s
    if isBlankLine line then readCompound sb input
    else if isOpener (trim line) then collectBlock sb line input
    else none

/-! ## The lines of a command -/

/-- A line as it is typed: `readline` has room for 255 characters. -/
structure Typed where
  text : Text
  plain : nul ∉ text
  short : text.length < 256
  nonblank : isBlankLine text = false

def heard (c : List Text) : List Text := (c.map heardLine).filter fun t => !isBlankLine t

/-- The depth count of `collect_block` reaches its end at the last line and not before. -/
def Closes (close : Keyword) : Int → List Text → Prop
  | _, [] => False
  | depth, t :: ts =>
    if isKw (trim t) close then
      if (if isOpener (trim t) then depth + 1 else depth) = 0 then ts = []
      else Closes close ((if isOpener (trim t) then depth + 1 else depth) - 1) ts
    else Closes close (if isOpener (trim t) then depth + 1 else depth) ts

def storeAll (sb : Buf) : Nat → List Text → Buf
  | _, [] => sb
  | n, t :: ts => storeAll (Function.update sb n (storeLine (sb n) t)) (n + 1) ts

theorem heard_cons (s : Text) (c : List Text) :
    heard (s :: c) = if isBlankLine (heardLine s) then heard c else heardLine s :: heard c := by
  unfold heard
  rw [map_cons, filter_cons]
  cases isBlankLine (heardLine s) <;> rfl

/-- **What has been collected** is what the shell heard up to the closing line. -/
theorem collectLoop_some {close : Keyword} {n' : Nat} {sb' : Buf} {rest : List Text} :
    ∀ {c : List Text} {n : Nat} {depth : Int} {sb : Buf},
    collectLoop close c n depth sb = some (n', sb', rest) → ∃ pre, c = pre ++ rest ∧ Closes close depth (heard pre) ∧
      n' = n + (heard pre).length ∧ n' ≤ 512 ∧ sb' = storeAll sb n (heard pre)
  | s :: c, n, depth, sb, h => by
    rw [collectLoop] at h
    dsimp only at h
    by_cases hb : isBlankLine (heardLine s) = true
    · rw [if_pos hb] at h
      obtain ⟨pre, h1, h2, h3, h4, h5⟩ := collectLoop_some h
      have hh : heard (s :: pre) = heard pre := by rw [heard_cons, if_pos hb]
      exact ⟨s :: pre, by rw [h1]; rfl, by rwa [hh], by rwa [hh], h4, by rwa [hh]⟩
    rw [if_neg hb] at h
    have hh : ∀ pre, heard (s :: pre) = heardLine s :: heard pre := fun pre => by rw [heard_cons, if_neg hb]
    by_cases hfull : 512 ≤ n
    · rw [if_pos hfull] at h
      cases h
    rw [if_neg hfull] at h
    -- the line closes the block, or one more line has been stored
    have hmore : ∀ depth', collectLoop close c (n + 1) depth' (update sb n (storeLine (sb n) (heardLine s))) =
        some (n', sb', rest) → (∀ ts, Closes close depth' ts → Closes close depth (heardLine s :: ts)) →
        ∃ pre, s :: c = pre ++ rest ∧ Closes close depth (heard pre) ∧ n' = n + (heard pre).length ∧ n' ≤ 512 ∧
          sb' = storeAll sb n (heard pre) := fun depth' h' hcl => by
      obtain ⟨pre, h1, h2, h3, h4, h5⟩ := collectLoop_some h'
      refine ⟨s :: pre, by rw [h1]; rfl, by rw [hh]; exact hcl _ h2, ?_, h4, by rw [hh, storeAll]; exact h5⟩
      rw [hh, length_cons]
      omega
    by_cases hc : isKw (trim (heardLine s)) close = true
    · rw [if_pos hc] at h
      by_cases hd : (if isOpener (trim (heardLine s)) then depth + 1 else depth) = 0
      · rw [if_pos hd, Option.some.injEq, Prod.mk.injEq, Prod.mk.injEq] at h
        obtain ⟨rfl, rfl, rfl⟩ := h
        have hnil : heard [] = [] := rfl
        refine ⟨[s], rfl, ?_, by rw [hh, hnil]; rfl, by omega, by rw [hh, hnil]; rfl⟩
        rw [hh, hnil, Closes, if_pos hc, if_pos hd]
      · rw [if_neg hd] at h
        exact hmore _ h fun ts hts => by rw [Closes, if_pos hc, if_neg hd]; exact hts
    · rw [if_neg hc] at h
      exact hmore _ h fun ts hts => by rw [Closes, if_neg hc]; exact hts

/-- **A command whose last line closes it is collected**, and what follows is not read. -/
theorem collectLoop_closes {close : Keyword} {rest : List Text} : ∀ {c : List Text} {n : Nat} {depth : Int} {sb : Buf},
    (∀ s ∈ c.getLast?, isBlankLine (heardLine s) = false) → Closes close depth (heard c) → n + (heard c).length ≤ 512 →
    collectLoop close (c ++ rest) n depth sb = some (n + (heard c).length, storeAll sb n (heard c), rest)
  | s :: c, n, depth, sb, hlast, hcl, hlen => by
    have hlast' : ∀ x ∈ c.getLast?, isBlankLine (heardLine x) = false := fun x hx => by
      cases c with
      | nil => cases hx
      | cons y c => exact hlast x hx
    rw [cons_append, collectLoop]
    dsimp only
    by_cases hb : isBlankLine (heardLine s) = true
    · rw [heard_cons, if_pos hb] at hcl hlen ⊢
      rw [if_pos hb]
      exact collectLoop_closes hlast' hcl hlen
    rw [heard_cons, if_neg hb] at hcl hlen ⊢
    rw [length_cons] at hlen
    rw [Closes] at hcl
    rw [if_neg hb, if_neg (by omega), storeAll, length_cons,
      show n + ((heard c).length + 1) = n + 1 + (heard c).length by omega]
    by_cases hc : isKw (trim (heardLine s)) close = true
    · rw [if_pos hc] at hcl ⊢
      by_cases hd : (if isOpener (trim (heardLine s)) then depth + 1 else depth) = 0
      · rw [if_pos hd] at hcl ⊢
        -- nothing but the last line closes, and it is heard
        cases c with
        | nil => rfl
        | cons y c =>
          have hne : heard (y :: c) ≠ [] := by
            obtain ⟨x, hx⟩ := Option.isSome_iff_exists.1 (List.getLast?_isSome.2 (cons_ne_nil y c))
            refine ne_nil_of_mem (a := heardLine x) (mem_filter.2 ⟨mem_map_of_mem (mem_of_getLast? hx), ?_⟩)
            rw [hlast' x hx]
            rfl
          exact absurd hcl hne
      · rw [if_neg hd] at hcl ⊢
        exact collectLoop_closes hlast' hcl (by omega)
    · rw [if_neg hc] at hcl ⊢
      exact collectLoop_closes hlast' hcl (by omega)

/-! ## Slots -/

theorem storeAll_get : ∀ {ts : List Text} {sb : Buf} {n k : Nat}, storeAll sb n ts k =
    if n ≤ k ∧ k < n + ts.length then storeLine (sb k) (ts.getD (k - n) []) else sb k
  | [], sb, n, k => by
    rw [storeAll, if_neg]
    simp only [length_nil]
    omega
  | t :: ts, sb, n, k => by
    rw [storeAll, storeAll_get, length_cons]
    by_cases hk : k = n
    · subst hk
      rw [if_neg (by omega), if_pos (by omega), update_self, Nat.sub_self]
      rfl
    rw [update_of_ne hk]
    by_cases hin : n + 1 ≤ k ∧ k < n + 1 + ts.length
    · have hsub : k - n = k - (n + 1) + 1 := by omega
      rw [if_pos hin, if_pos (by omega), hsub, getD_cons_succ]
    · rw [if_neg hin, if_neg (by omega)]

def slotOf (line : Text) : Slot := line ++ List.replicate (256 - line.length) nul

variable {line : Text}

theorem slotText_slotOf (hn : nul ∉ line) (hl : line.length ≤ 254) : slotText (slotOf line) = line := by
  have hpos : ∀ c ∈ line, (c != nul) = true := fun c hc => bne_iff_ne.mpr (ne_of_mem_of_not_mem hc hn)
  unfold slotText slotOf
  rw [takeWhile_append_of_pos hpos]
  obtain ⟨n, hrep⟩ : ∃ n, 256 - line.length = n + 1 := ⟨255 - line.length, by omega⟩
  rw [hrep, replicate_succ, takeWhile_cons_of_neg (by decide), append_nil]

/-- **Storing over another line**: the end of the longer one stays. -/
theorem storeLine_slotOf {old : Text} (ho : old.length ≤ 254) (hl : line.length ≤ 254) :
    storeLine (slotOf old) line = slotOf (line ++ old.drop line.length) := by
  have hlen : 256 - (line ++ old.drop line.length).length = 256 - max line.length old.length := by
    rw [length_append, length_drop]
    omega
  unfold storeLine slotOf
  rw [drop_append, drop_replicate, hlen, ← append_assoc,
    show 256 - old.length - (line.length - old.length) = 256 - max line.length old.length by omega]
  refine ext_getElem (length_set ..) fun k h1 h2 => ?_
  by_cases hk : k = 255
  · subst hk
    rw [getElem_set_self, getElem_append_right (by rw [length_append, length_drop]; omega), getElem_replicate]
  · exact getElem_set_ne (Ne.symm hk) ..

def Lined (sb : Buf) : Prop := ∀ k, ∃ t : Text, sb k = slotOf t ∧ nul ∉ t ∧ t.length ≤ 254

variable {sb : Buf} {ts c : List Text}

section

variable (h : Lined sb) (hts : ∀ t ∈ ts, nul ∉ t ∧ t.length ≤ 254)
include h hts

theorem Lined.store (n : Nat) : Lined (storeAll sb n ts) := fun k => by
  rw [storeAll_get]
  split
  · obtain ⟨t, h1, h2, h3⟩ := h k
    obtain ⟨hn, hl⟩ := hts (ts.getD (k - n) []) (by
      rw [getD_eq_getElem _ _ (by omega)]
      exact getElem_mem _)
    rw [h1, storeLine_slotOf h3 hl]
    refine ⟨_, rfl, fun hm => ?_, by rw [length_append, length_drop]; omega⟩
    rcases mem_append.mp hm with hm | hm
    · exact hn hm
    · exact h2 (mem_of_mem_drop hm)
  · exact h k

/-- **What is read back**: the new line, and the end of the one before. -/
theorem Lined.slotText_store {k : Nat} (hk : k < ts.length) : slotText (storeAll sb 0 ts k) = ts[k] ++ (slotText (sb k)).drop
    ts[k].length := by
  obtain ⟨t, h1, h2, h3⟩ := h k
  obtain ⟨hn, hl⟩ := hts _ (getElem_mem hk)
  rw [storeAll_get, if_pos (by omega), Nat.sub_zero, getD_eq_getElem _ _ hk, h1, storeLine_slotOf h3 hl, slotText_slotOf h2 h3,
    slotText_slotOf _ (by rw [length_append, length_drop]; omega)]
  intro hm
  rcases mem_append.mp hm with hm | hm
  · exact hn hm
  · exact h2 (mem_of_mem_drop hm)

end

/-! ## Reading commands -/

theorem mem_heard {t : Text} (h : t ∈ heard c) : ∃ s ∈ c, t = s.take 254 := by
  obtain ⟨s, hs, rfl⟩ := mem_map.mp (mem_of_mem_filter h)
  exact ⟨s, hs, rfl⟩

theorem heard_fits (hc : ∀ s ∈ c, nul ∉ s) : ∀ t ∈ heard c, nul ∉ t ∧ t.length ≤ 254 := fun t ht => by
  obtain ⟨s, hs, rfl⟩ := mem_heard ht
  exact ⟨fun hm => hc s hs (mem_of_mem_take hm), by rw [length_take]; omega⟩

theorem heard_eq (h : ∀ s ∈ c, heardLine s = s ∧ isBlankLine s = false) : heard c = c := by
  unfold heard
  rw [map_congr_left fun s hs => (h s hs).1, map_id', filter_eq_self]
  intro s hs
  rw [(h s hs).2]
  rfl

theorem readCompound_some {n : Nat} {sb sb' : Buf} {rest : List Text} : ∀ {c : List Text}, readCompound sb c = some (n, sb', rest) →
    ∃ pre t ts, c = pre ++ rest ∧ heard pre = t :: ts ∧ isOpener (trim t) = true ∧ Closes (closeKw t) 0 ts ∧
      n = (heard pre).length ∧ n ≤ 512 ∧ sb' = storeAll sb 0 (heard pre)
  | s :: c, h => by
    rw [readCompound] at h
    by_cases hb : isBlankLine (heardLine s) = true
    · rw [if_pos hb] at h
      obtain ⟨pre, t, ts, h1, h2⟩ := readCompound_some h
      have hh : heard (s :: pre) = heard pre := by rw [heard_cons, if_pos hb]
      exact ⟨s :: pre, t, ts, by rw [h1]; rfl, by rwa [hh]⟩
    rw [if_neg hb] at h
    by_cases ho : isOpener (trim (heardLine s)) = true
    · rw [if_pos ho] at h
      obtain ⟨pre, h1, h2, h3, h4, h5⟩ := collectLoop_some h
      have hh : heard (s :: pre) = heardLine s :: heard pre := by rw [heard_cons, if_neg hb]
      refine ⟨s :: pre, heardLine s, heard pre, by rw [h1]; rfl, hh, ho, h2, ?_, h4, by rw [hh, storeAll]; exact h5⟩
      rw [hh, length_cons]
      omega
    · rw [if_neg ho] at h
      cases h

/-- The buffers of a shell that reads compound commands.  Running one leaves `sb` as it was. -/
inductive Reached : Buf → Prop where
  | fresh : Reached freshBuf
  | read {sb sb' : Buf} {c rest : List Text} {n : Nat} (h : Reached sb) (hc : ∀ s ∈ c, nul ∉ s)
      (hr : readCompound sb c = some (n, sb', rest)) : Reached sb'

theorem Reached.lined (h : Reached sb) : Lined sb := by
  induction h with
  | fresh => exact fun _ => ⟨[], rfl, not_mem_nil, Nat.zero_le _⟩
  | read _ hc hr ih =>
    obtain ⟨pre, t, ts, rfl, -, -, -, -, -, rfl⟩ := readCompound_some hr
    exact ih.store (heard_fits fun s hs => hc s (mem_append_left _ hs)) 0

/-! ## Two commands -/

/-- A command is collected whole when it starts with an opener, its depth count ends at its last line, and its lines and their
number fit what `next_line` copies. -/
structure Collectable (ls : List Typed) : Prop where
  closes : ∃ t ts, ls.map Typed.text = t :: ts ∧ isOpener (trim t) = true ∧ Closes (closeKw t) 0 ts
  few : ls.length ≤ 512
  short : ∀ s ∈ ls, s.text.length ≤ 254

def ReadsBack (sb : Buf) (ls : List Typed) (sb' : Buf) : Prop :=
  readCompound sb (ls.map Typed.text) = some (ls.length, sb', []) ∧
    ∀ (k : Nat) (hk : k < ls.length), slotText (sb' k) = ls[k].text

section Second

variable {sb sb' : Buf} {ls : List Typed}

theorem Collectable.heard (h : Collectable ls) : ∀ s ∈ ls.map Typed.text, heardLine s = s ∧ isBlankLine s = false := fun s hs => by
  obtain ⟨l, hl, rfl⟩ := mem_map.mp hs
  exact ⟨take_of_length_le (h.short l hl), l.nonblank⟩

theorem Collectable.fits (h : Collectable ls) : ∀ t ∈ ls.map Typed.text, nul ∉ t ∧ t.length ≤ 254 := fun t ht => by
  obtain ⟨l, hl, rfl⟩ := mem_map.mp ht
  exact ⟨l.plain, h.short l hl⟩

theorem Collectable.read (h : Collectable ls) (sb : Buf) :
    readCompound sb (ls.map Typed.text) = some (ls.length, storeAll sb 0 (ls.map Typed.text), []) := by
  obtain ⟨t, ts, hc, ho, hcl⟩ := h.closes
  have hall := h.heard
  have hlen : ls.length = ts.length + 1 := by rw [← length_map (f := Typed.text), hc, length_cons]
  have hfew := h.few
  rw [hc] at hall ⊢
  obtain ⟨h1, h2⟩ := hall t mem_cons_self
  have hts : Nsh.heard ts = ts := heard_eq fun s hs => hall s (mem_cons_of_mem t hs)
  have hread : collectLoop _ (ts ++ []) 1 _ (update sb 0 (storeLine (sb 0) t)) = _ := collectLoop_closes
    (fun s hs => by obtain ⟨h1, h2⟩ := hall s (mem_cons_of_mem t (mem_of_getLast? hs)); rw [h1, h2]) (by rwa [hts])
    (by rw [hts]; omega)
  rw [append_nil, hts] at hread
  rw [readCompound, h1, h2, if_neg Bool.false_ne_true, if_pos ho, collectBlock, hread, hlen, add_comm]
  rfl

theorem ReadsBack.collectable (hl : Lined sb) (h : ReadsBack sb ls sb') :
    Collectable ls ∧ sb' = storeAll sb 0 (ls.map Typed.text) := by
  obtain ⟨hread, htext⟩ := h
  have hplain : ∀ s ∈ ls.map Typed.text, nul ∉ s := fun s hs => by
    obtain ⟨l, -, rfl⟩ := mem_map.mp hs
    exact l.plain
  obtain ⟨pre, t, ts, hpre, hheard, ho, hcl, hn, hfew, hsb⟩ := readCompound_some hread
  rw [append_nil] at hpre
  subst hpre
  have hshort : ∀ s ∈ ls, s.text.length ≤ 254 := fun s hs => by
    obtain ⟨k, hk, rfl⟩ := getElem_of_mem hs
    obtain ⟨x, hx, hxn, hxl⟩ := (hl.store (heard_fits hplain) 0) k
    rw [← htext k hk, hsb, hx, slotText_slotOf hxn hxl]
    exact hxl
  have hself : Nsh.heard (ls.map Typed.text) = ls.map Typed.text := heard_eq fun s hs => by
    obtain ⟨l, hl', rfl⟩ := mem_map.mp hs
    exact ⟨take_of_length_le (hshort l hl'), l.nonblank⟩
  rw [hself] at hheard hsb
  exact ⟨⟨⟨t, ts, hheard, ho, hcl⟩, hfew, hshort⟩, hsb⟩

/-- **When a command reads back**: no slot it takes holds a longer line. -/
theorem readsBack_iff (hl : Lined sb) : (∃ sb', ReadsBack sb ls sb') ↔
    Collectable ls ∧ ∀ (k : Nat) (hk : k < ls.length), (slotText (sb k)).length ≤ ls[k].text.length := by
  have htext : ∀ (hc : Collectable ls) (k : Nat) (hk : k < ls.length), slotText (storeAll sb 0 (ls.map Typed.text) k) =
      ls[k].text ++ (slotText (sb k)).drop ls[k].text.length := fun hc k hk => by
    rw [hl.slotText_store hc.fits (by rw [length_map]; exact hk), getElem_map]
  constructor
  · rintro ⟨sb', h⟩
    obtain ⟨hc, rfl⟩ := h.collectable hl
    refine ⟨hc, fun k hk => ?_⟩
    have heq := h.2 k hk
    rw [htext hc k hk] at heq
    exact drop_eq_nil_iff.mp (append_right_eq_self.mp heq)
  · rintro ⟨hc, hold⟩
    refine ⟨_, hc.read sb, fun k hk => ?_⟩
    rw [htext hc k hk, drop_eq_nil_iff.mpr (hold k hk), append_nil]

theorem lay_congr {sb sb' : Sb} : ∀ {its : List Item} {i : Nat}, Lay sb i its → (∀ k, i ≤ k → k < i + its.length → sb' k = sb k) →
    Lay sb' i its
  | [], _, _, _ => trivial
  | it :: its, i, ⟨h1, h2, h3⟩, h => by
    rw [length_cons] at h
    have hi := h i (le_refl i) (by omega)
    exact ⟨hi ▸ h1, hi ▸ h2, lay_congr h3 fun k h1 h2 => h k (by omega) (by omega)⟩

end Second

def typedSb (c : List Typed) : Sb := fun k => (c.map Typed.text).getD k []

/-- **When a compound command does not notice the ones before it.**  In any shell that has read compound commands, the last of
them `c1`, the lines of `c2` are stored and read back exactly if `collect_block` finds the end of `c2` and no slot it takes
holds a longer line; and then `exec_block` runs `c2` as the script it is. -/
theorem collect_second_iff {sb0 sb1 : Buf} {c1 : List Text} {n1 : Nat} (h0 : Reached sb0) (hp : ∀ s ∈ c1, nul ∉ s)
    (h1 : readCompound sb0 c1 = some (n1, sb1, [])) (c2 : List Typed) : ((∃ sb2, ReadsBack sb1 c2 sb2) ↔
      Collectable c2 ∧ ∀ (k : Nat) (hk : k < c2.length), (slotText (sb1 k)).length ≤ c2[k].text.length) ∧
    ∀ sb2, ReadsBack sb1 c2 sb2 → ∀ s : Script, s.VarsFit → s.items.length = c2.length → Lay (typedSb c2) 0 s.items → ∀ io : Io,
      Settles (fun fuel => execBlock fuel 0 c2.length ⟨fun k => slotText (sb2 k), io⟩)
        ((s.eval io).map (Sh.mk fun k => slotText (sb2 k))) := by
  refine ⟨readsBack_iff (Reached.read h0 hp h1).lined, fun sb2 h s hv hlen hlay io => ?_⟩
  rw [← hlen]
  refine (s.runs hv).block (lay_congr hlay fun k _ hk => ?_) (zero_add _).symm io
  have hk' : k < c2.length := by omega
  rw [h.2 k hk', typedSb, getD_eq_getElem _ _ (by rw [length_map]; exact hk'), getElem_map]

section Commands

def ifPwd : Typed := ⟨['i', 'f', ' ', 'p', 'w', 'd'], by decide, by decide, by decide⟩
def thenLine : Typed := ⟨['t', 'h', 'e', 'n'], by decide, by decide, by decide⟩
def lsLine : Typed := ⟨['l', 's'], by decide, by decide, by decide⟩
def pwdLine : Typed := ⟨['p', 'w', 'd'], by decide, by decide, by decide⟩
def fiLine : Typed := ⟨['f', 'i'], by decide, by decide, by decide⟩

def ifCommand (body : Typed) : List Typed := [ifPwd, thenLine, body, fiLine]

theorem ifCommand_collectable (body : Typed) (hk : isKw (trim body.text) .kFi = false) (ho : isOpener (trim body.text) = false)
    (hs : body.text.length ≤ 254) : Collectable (ifCommand body) := by
  refine ⟨⟨ifPwd.text, [thenLine.text, body.text, fiLine.text], rfl, by decide, ?_⟩, Nat.le_of_ble_eq_true rfl, ?_⟩
  · have hif : closeKw ifPwd.text = .kFi := by decide
    rw [hif, Closes, if_neg (by decide), if_neg (by decide), Closes, if_neg (by rw [hk]; decide),
      if_neg (by rw [ho]; decide), Closes, if_pos (by decide), if_pos (by decide)]
  · intro s hm
    fin_cases hm
    exacts [by decide, by decide, hs, by decide]

def ifBuf (body : Typed) : Buf := storeAll freshBuf 0 ((ifCommand body).map Typed.text)

theorem collect_second_same : ∃ sb2, ReadsBack (ifBuf lsLine) (ifCommand pwdLine) sb2 := by
  have hread := (ifCommand_collectable lsLine (by decide) (by decide) (by decide)).read freshBuf
  refine (collect_second_iff Reached.fresh (by decide) hread (ifCommand pwdLine)).1.mpr
    ⟨ifCommand_collectable pwdLine (by decide) (by decide) (by decide), ?_⟩
  decide

/-- **A shorter line keeps the end of the longer one before it**: `ls` after `pwd` is read as `lsd`. -/
theorem collect_keeps_tail : readCompound freshBuf ((ifCommand pwdLine).map Typed.text) = some (4, ifBuf pwdLine, []) ∧
    (∃ sb2, readCompound (ifBuf pwdLine) ((ifCommand lsLine).map Typed.text) = some (4, sb2, []) ∧
      slotText (sb2 2) = ['l', 's', 'd']) ∧ ¬ ∃ sb2, ReadsBack (ifBuf pwdLine) (ifCommand lsLine) sb2 := by
  have hread := (ifCommand_collectable pwdLine (by decide) (by decide) (by decide)).read freshBuf
  have hls := ifCommand_collectable lsLine (by decide) (by decide) (by decide)
  refine ⟨hread, ⟨_, hls.read _, by decide⟩, fun h => ?_⟩
  have hlong := ((readsBack_iff (Reached.read Reached.fresh (by decide) hread).lined).mp h).2 2 (by decide)
  exact absurd hlong (by decide)

end Commands

end Nsh
end Noxis
