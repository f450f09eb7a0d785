import Noxis.Cwd
/-!
# Resolve — walking a path, as it is meant

`noxfs_resolve` copies the components of a path through a buffer of 32 bytes, so that a longer one is taken in pieces.  No
directory has a name as long as such a piece, and the walk ends there as it would have with the whole component:
`resolve_spec` compares it with the fold over the components of the path.
-/
namespace Noxis

open List Option Vol

/-! ## The components of a path -/

def pieces (p : List UInt8) : List Name := (p.splitOn 47).filter (· ≠ [])

theorem pieces_nil : pieces [] = [] := rfl

theorem pieces_slash (p : List UInt8) : pieces (47 :: p) = pieces p := by
  have h := splitOn_append_cons_self (a := (47 : UInt8)) [] p
  rw [nil_append, splitOn_nil] at h
  unfold pieces
  rw [h]
  rfl

theorem pieces_dropWhile : ∀ p : List UInt8, pieces (p.dropWhile (· == 47)) = pieces p
  | [] => rfl
  | x :: p => by
    by_cases hx : x = 47
    · subst hx
      rw [dropWhile_cons_of_pos rfl, pieces_dropWhile p, pieces_slash]
    · rw [dropWhile_cons_of_neg (by simpa using hx)]

theorem pieces_append {c p : List UInt8} (hne : c ≠ []) (hc : (47 : UInt8) ∉ c) : pieces (c ++ 47 :: p) = c :: pieces p := by
  have hsep : ∀ x ∈ c, (x == (47 : UInt8)) = false := fun x hx => beq_eq_false_iff_ne.mpr (ne_of_mem_of_not_mem hx hc)
  unfold pieces
  rw [splitOn_append_cons_self, splitOn, splitOnP_eq_singleton hsep, singleton_append,
    filter_cons_of_pos (by simpa using hne)]

theorem pieces_single {c : List UInt8} (hne : c ≠ []) (hc : (47 : UInt8) ∉ c) : pieces c = [c] := by
  have hsep : ∀ x ∈ c, (x == (47 : UInt8)) = false := fun x hx => beq_eq_false_iff_ne.mpr (ne_of_mem_of_not_mem hx hc)
  unfold pieces
  rw [splitOn, splitOnP_eq_singleton hsep, filter_cons_of_pos (by simpa using hne), filter_nil]

theorem pieces_cut {q : List UInt8} {x : UInt8} {r : List UInt8} (hq : q = x :: r) (hx : (x != 47) = true) :
    pieces q = q.takeWhile (· != 47) :: pieces (q.dropWhile (· != 47)) := by
  have hne : q.takeWhile (· != 47) ≠ [] := by
    rw [hq, takeWhile_cons_of_pos (by exact hx)]
    exact cons_ne_nil _ _
  have hplain : (47 : UInt8) ∉ q.takeWhile (· != 47) := fun hm => by simpa using mem_takeWhile_imp hm
  have hsplit := takeWhile_append_dropWhile (p := (· != (47 : UInt8))) (l := q)
  have hhead := head?_dropWhile_not (· != (47 : UInt8)) q
  generalize q.takeWhile (· != 47) = c at *
  generalize q.dropWhile (· != 47) = rest at *
  cases rest with
  | nil =>
    rw [← hsplit, append_nil, pieces_single hne hplain, pieces_nil]
  | cons y rest =>
    obtain rfl : y = 47 := by simpa using hhead
    rw [← hsplit, pieces_append hne hplain, pieces_slash]

theorem words_eq_pieces : ∀ (n : Nat) (p : List UInt8), p.length ≤ n → words n p = pieces p
  | 0, p, h => by
    obtain rfl := eq_nil_of_length_eq_zero (Nat.le_zero.mp h)
    rfl
  | n + 1, p, h => by
    rw [words]
    by_cases hnil : p.dropWhile (· == 47) = []
    · rw [if_pos hnil, ← pieces_dropWhile, hnil, pieces_nil]
    obtain ⟨x, r, hq, hx⟩ := skip_slashes hnil
    have hlen := length_dropWhile_le (· == (47 : UInt8)) p
    have hrest := length_dropWhile_le (· != (47 : UInt8)) r
    rw [hq, length_cons] at hlen
    rw [if_neg hnil, ← pieces_dropWhile p, pieces_cut hq hx, words_eq_pieces n]
    rw [hq, dropWhile_cons_of_pos (by exact hx)]
    omega

/-! ## The walk -/

/-- What a path means: the components one after the other, `.` and the empty ones left out, `..` the root, and any other looked
up in the directory reached so far. -/
def pathFold (root : Nat) (look : Heap → Nat → Name → Option Nat) : Heap → Nat → List Name → Option Nat
  | _, cur, [] => some cur
  | e, cur, c :: cs =>
    if c = [] then pathFold root look e cur cs
    else if c = [46] then pathFold root look (e.sub 1) cur cs
    else if c = [46, 46] then pathFold root look (e.sub 1) root cs
    else (look (e.sub 0) cur c).bind fun ino => pathFold root look (e.sub 1) ino cs

theorem pathFold_congr {root : Nat} {look look' : Heap → Nat → Name → Option Nat}
    (h : ∀ e : Heap, e.Ok → ∀ cur c, look e cur c = look' e cur c) : ∀ (cs : List Name) (e : Heap) (cur : Nat), e.Ok →
    pathFold root look e cur cs = pathFold root look' e cur cs
  | [], _, _, _ => rfl
  | c :: cs, e, cur, he => by
    have hrest : ∀ cur, pathFold root look (e.sub 1) cur cs = pathFold root look' (e.sub 1) cur cs :=
      fun cur => pathFold_congr h cs (e.sub 1) cur (he.sub 1)
    rw [pathFold, pathFold, pathFold_congr h cs e cur he, hrest, hrest, h _ (he.sub 0)]
    simp only [hrest]

def Vol.NamesShort (v : Vol) : Prop := ∀ (e : Heap) (dir size : Nat) (n : Inode) (d : Nat → UInt8),
  v.iread dir = some n → n.isDir = true → v.loadData e dir = some (size, some d) →
  ∀ k < size / 32, (direntAt d k).inode ≠ 0 → (direntAt d k).name.length ≤ 23

section Walk

variable {v : Vol}

theorem Vol.Tree.namesShort (ht : v.Tree) : v.NamesShort := by
  intro e dir size n d hn hdir hload k hk _
  have hi : dir < v.sb.inodeCount := by
    by_contra hge
    unfold iread at hn
    rw [if_pos (by omega)] at hn
    cases hn
  rw [iread_of_lt hi, some.injEq] at hn
  subst hn
  have hok := ht dir hi hdir
  obtain ⟨buf, hbuf, hbytes⟩ | ⟨-, sz, hnone⟩ := loadData_cases e hi hok.mapped
  · rw [hload, some.injEq, Prod.mk.injEq, some.injEq] at hbuf
    obtain ⟨rfl, rfl⟩ := hbuf
    rw [hok.direntAt_eq hbytes hk]
    exact hok.names _ (mem_map.mpr ⟨k, mem_range.mpr hk, rfl⟩)
  · rw [hload, some.injEq, Prod.mk.injEq] at hnone
    cases hnone.2

theorem Vol.NamesShort.found (h : v.NamesShort) {e : Heap} {cur ino : Nat} {c : Name} (hf : v.dirLookupName e cur c = some ino) :
    c.length ≤ 23 := by
  unfold dirLookupName at hf
  cases hn : v.iread cur with
  | none => rw [hn] at hf; cases hf
  | some n =>
    rw [hn] at hf
    dsimp only at hf
    cases hd : n.isDir with
    | false => rw [hd, if_pos rfl] at hf; cases hf
    | true =>
      rw [hd, if_neg (by decide)] at hf
      split at hf
      next sz d hload =>
        split at hf
        next => cases hf
        next k hk =>
          have hmem := mem_range.mp (mem_of_find?_eq_some hk)
          have hhit := find?_some (p := fun k => (direntAt d k).hit c) hk
          simp only [Dirent.hit, Bool.and_eq_true, bne_iff_ne, beq_iff_eq] at hhit
          rw [← hhit.2]
          exact h e cur sz n d hn hd hload k hmem hhit.1
      next => cases hf

theorem walk_filter : ∀ (cs : List Name) (e : Heap) (cur : Nat),
    v.walk e cur (cs.filter (· ≠ [])) = pathFold v.sb.rootIno (fun e => v.dirLookupName e) e cur cs
  | [], _, _ => rfl
  | c :: cs, e, cur => by
    rw [pathFold]
    by_cases hc : c = []
    · rw [if_pos hc, filter_cons_of_neg (by simpa using hc), walk_filter cs]
    rw [if_neg hc, filter_cons_of_pos (by simpa using hc), Vol.walk, walk_filter cs, walk_filter cs]
    split
    · rfl
    split
    · rfl
    · cases v.dirLookupName (e.sub 0) cur c with
      | none => rfl
      | some i => exact walk_filter cs (e.sub 1) i

theorem walk_long (h : v.NamesShort) {c : Name} (hlen : 23 < c.length) (cs : List Name) (e : Heap) (cur : Nat) :
    v.walk e cur (c :: cs) = none := by
  have hdot : c ≠ [46] := fun hc => by rw [hc] at hlen; exact absurd hlen (by decide)
  have hdots : c ≠ [46, 46] := fun hc => by rw [hc] at hlen; exact absurd hlen (by decide)
  rw [Vol.walk, if_neg hdot, if_neg hdots]
  cases hf : v.dirLookupName (e.sub 0) cur c with
  | none => rfl
  | some ino => exact absurd (h.found hf) (by omega)

/-- **A component that is taken in pieces ends the walk**, as the whole of it would. -/
theorem walk_components (h : v.NamesShort) : ∀ (n : Nat) (p : List UInt8) (e : Heap) (cur : Nat),
    v.walk e cur (components n p) = v.walk e cur (words n p)
  | 0, _, _, _ => rfl
  | n + 1, p, e, cur => by
    by_cases hnil : p.dropWhile (· == 47) = []
    · simp only [components, words, hnil, if_true]
    by_cases hle : ((p.dropWhile (· == 47)).takeWhile (· != 47)).length ≤ 31
    · rw [components_succ n hnil hle, words, if_neg hnil, Vol.walk, Vol.walk]
      simp only [walk_components h n]
    · rw [components, if_neg hnil, words, if_neg hnil, walk_long h, walk_long h]
      · omega
      · rw [nextComp, length_take]
        omega

/-- **Path walking is its specification.**  On every volume whose names have 23 bytes at most `noxfs_resolve` is the fold over
the components of the path, whatever the allocator answers to each lookup; and where every directory is made of whole records
and no allocation fails, a lookup is the first live record with the name. -/
theorem resolve_spec (h : v.NamesShort) (e : Heap) (base : Nat) (path : List UInt8) :
    v.resolve e base path = pathFold v.sb.rootIno (fun e => v.dirLookupName e) e
      (if path.head? = some 47 then v.sb.rootIno else base) (path.splitOn 47) ∧
    (v.Tree → e.Ok → v.resolve e base path = pathFold v.sb.rootIno (fun _ => v.look) e
      (if path.head? = some 47 then v.sb.rootIno else base) (path.splitOn 47)) := by
  have hfold : v.resolve e base path = pathFold v.sb.rootIno (fun e => v.dirLookupName e) e
      (if path.head? = some 47 then v.sb.rootIno else base) (path.splitOn 47) := by
    rw [resolve, walk_components h, words_eq_pieces _ _ (le_refl _), pieces, walk_filter]
  exact ⟨hfold, fun ht he => hfold.trans (pathFold_congr (fun e he cur c => dirLookupName_look ht he cur c) _ e _ he)⟩

/-- `//a/./b` on a volume with the directory `b` in the directory `a`. -/
theorem resolve_spec_nested : nestedVol.resolve calm 0 [47, 47, 97, 47, 46, 47, 98] = some 2 := by
  rw [(resolve_spec nestedVol_tree.namesShort calm 0 [47, 47, 97, 47, 46, 47, 98]).2 nestedVol_tree fun _ => rfl]
  decide +kernel

end Walk
end Noxis
