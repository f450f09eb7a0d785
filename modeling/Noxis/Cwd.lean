import Noxis.Path
import Noxis.Run
/-!
# Cwd — the working directory's string and inode

`sys_chdir` finds the inode by walking the disk and the string by normalising text, and the two are never compared.
`noxfs_resolve` takes `..` to the root, the normaliser pops one component, so they agree only while every `..` is met with
one component or none on the stack (`Shallow`).  Under that condition, and while the text fits `path_resolve_str`'s buffers,
both follow the same list of components (`walk_canon`, `pathResolveStr_eq`), and the string resolves to the inode after
every call (`chdir_agrees`).
-/
namespace Noxis

open List Option Bool Vol

variable {v : Vol} {e : Heap} {cur ino : Nat}

/-! ## Following names -/

/-- Every directory of the volume is made of whole records with names of 23 bytes at most. -/
def Vol.Tree (v : Vol) : Prop := ∀ i < v.sb.inodeCount, (v.inode i).isDir = true → v.DirOk i

def Vol.look (v : Vol) (cur : Nat) (c : Name) : Option Nat :=
  if cur < v.sb.inodeCount ∧ (v.inode cur).isDir = true then (v.named cur c).filter (· != 2 ^ 32 - 1) else none

def Vol.follow (v : Vol) (cur : Nat) (cs : List Name) : Option Nat := cs.foldlM v.look cur

theorem dirLookupName_look (ht : v.Tree) (he : e.Ok) (cur : Nat) (c : Name) : v.dirLookupName e cur c = v.look cur c := by
  unfold look
  split
  · rename_i hc
    exact dirLookupName_eq he hc.1 (ht cur hc.1 hc.2) c
  rename_i hc
  unfold dirLookupName iread
  by_cases hlt : cur < v.sb.inodeCount
  · have hdir : (v.inode cur).isDir = false := by
      cases hd : (v.inode cur).isDir with
      | false => rfl
      | true => exact absurd ⟨hlt, hd⟩ hc
    rw [if_neg (by omega)]
    simp only [hdir, if_true]
  · rw [if_pos (by omega)]

theorem dirLookupName_heap (e : Heap) (v : Vol) (cur : Nat) (c : Name) :
    v.dirLookupName e cur c = if e.ok [0] then v.dirLookupName ⟨fun _ => true, e.junk⟩ cur c else none := by
  unfold dirLookupName loadData Heap.kmalloc
  split
  · rw [ite_self]
  rename_i n hn
  rw [hn]
  by_cases hok : e.ok [0] = true
  · simp only [hok, if_true]
  · simp only [hok, false_eq_true, if_false]
    split
    · rfl
    · by_cases hz : n.size = 0 <;> simp [hz]

variable {c : Name}

theorem look_of_dirLookupName (ht : v.Tree) (h : v.dirLookupName e cur c = some ino) : v.look cur c = some ino := by
  rw [dirLookupName_heap] at h
  split at h
  · rwa [dirLookupName_look ht (fun _ => rfl)] at h
  · cases h

theorem look_length (ht : v.Tree) (h : v.look cur c = some ino) : c.length ≤ 23 := by
  unfold look at h
  split at h
  · rename_i hc
    rw [filter_eq_some_iff, named, map_eq_some_iff] at h
    obtain ⟨⟨r, hr, -⟩, -⟩ := h
    have hhit := find?_some hr
    simp only [Dirent.hit, and_eq_true, beq_iff_eq] at hhit
    rw [← hhit.2]
    exact (ht cur hc.1 hc.2).names r (mem_of_find?_eq_some hr)
  · cases h

theorem follow_snoc (cur : Nat) (cs : List Name) (c : Name) :
    v.follow cur (cs ++ [c]) = (v.follow cur cs).bind fun i => v.look i c := by
  unfold follow
  rw [foldlM_append]
  simp only [foldlM_cons, foldlM_nil, bind_pure]
  rfl

/-! ## The component stack -/

def canonStep (st : List Name) (c : Name) : List Name :=
  if c = [46] then st else if c = [46, 46] then st.dropLast else st ++ [c]

def canon (st ws : List Name) : List Name := ws.foldl canonStep st

/-- Every `..` is met with one component or none on the stack. -/
def Shallow : List Name → List Name → Prop
  | _, [] => True
  | st, c :: ws => (c = [46, 46] → st.length ≤ 1) ∧ Shallow (canonStep st c) ws

instance Shallow.decidable : (st ws : List Name) → Decidable (Shallow st ws)
  | _, [] => .isTrue trivial
  | st, c :: ws => @instDecidableAnd _ _ _ (Shallow.decidable (canonStep st c) ws)

/-- A component that a canonical path has: not empty, without a slash, no dots, and short enough for a directory. -/
structure Plain (c : Name) : Prop where
  ne : c ≠ []
  short : c.length ≤ 23
  slash : (47 : UInt8) ∉ c
  dot : c ≠ [46]
  dots : c ≠ [46, 46]

theorem canon_plain : ∀ (cs : List Name) (st : List Name), (∀ c ∈ cs, Plain c) → canon st cs = st ++ cs
  | [], st, _ => (append_nil st).symm
  | c :: cs, st, h => by
    have hc := h c mem_cons_self
    have hstep : canonStep st c = st ++ [c] := by rw [canonStep, if_neg hc.dot, if_neg hc.dots]
    rw [canon, foldl_cons, hstep]
    exact (canon_plain cs (st ++ [c]) (fun d hd => h d (mem_cons_of_mem _ hd))).trans (by simp)

theorem canon_append (st ws ws' : List Name) : canon st (ws ++ ws') = canon (canon st ws) ws' := foldl_append

theorem Shallow.right : ∀ (ws st ws' : List Name), Shallow st (ws ++ ws') → Shallow (canon st ws) ws'
  | [], _, _, h => h
  | c :: ws, st, ws', h => Shallow.right ws (canonStep st c) ws' h.2

/-- **The walk follows the stack**, from whatever the stack so far leads to. -/
theorem walk_canon (ht : v.Tree) : ∀ (ws : List Name) (st : List Name) (cur : Nat) (e : Heap),
    v.follow v.sb.rootIno st = some cur → Shallow st ws → v.walk e cur ws = some ino →
    v.follow v.sb.rootIno (canon st ws) = some ino ∧ ∀ c ∈ ws, c.length ≤ 23
  | [], st, cur, e, hst, _, hw => by
    have hci : cur = ino := some.inj hw
    exact ⟨hci ▸ hst, fun c hc => absurd hc not_mem_nil⟩
  | c :: ws, st, cur, e, hst, hsh, hw => by
    rw [canon, foldl_cons]
    obtain ⟨hup, hrest⟩ := hsh
    unfold canonStep at hrest ⊢
    unfold Vol.walk at hw
    by_cases hdot : c = [46]
    · rw [if_pos hdot] at hw hrest ⊢
      obtain ⟨h1, h2⟩ := walk_canon ht ws st cur _ hst hrest hw
      exact ⟨h1, forall_mem_cons.2 ⟨by rw [hdot]; decide, h2⟩⟩
    rw [if_neg hdot] at hw hrest ⊢
    by_cases hdots : c = [46, 46]
    · -- one component or none: the parent is the root
      have hpop : st.dropLast = [] := eq_nil_of_length_eq_zero (by rw [length_dropLast]; have := hup hdots; omega)
      rw [if_pos hdots, hpop] at hrest ⊢
      rw [if_pos hdots] at hw
      obtain ⟨h1, h2⟩ := walk_canon ht ws [] v.sb.rootIno _ rfl hrest hw
      exact ⟨h1, forall_mem_cons.2 ⟨by rw [hdots]; decide, h2⟩⟩
    · rw [if_neg hdots] at hw hrest ⊢
      split at hw
      · cases hw
      · rename_i i hi
        have hlook := look_of_dirLookupName ht hi
        obtain ⟨h1, h2⟩ := walk_canon ht ws (st ++ [c]) i _ (by rw [follow_snoc, hst]; exact hlook) hrest hw
        exact ⟨h1, forall_mem_cons.2 ⟨look_length ht hlook, h2⟩⟩

theorem walk_plain (ht : v.Tree) : ∀ (cs : List Name) (cur : Nat) (e : Heap), e.Ok → (∀ c ∈ cs, Plain c) →
    v.walk e cur cs = v.follow cur cs
  | [], _, _, _, _ => rfl
  | c :: cs, cur, e, he, h => by
    have hc := h c mem_cons_self
    unfold Vol.walk
    rw [if_neg hc.dot, if_neg hc.dots, dirLookupName_look ht (he.sub 0), follow, foldlM_cons]
    cases v.look cur c with
    | none => rfl
    | some i => exact walk_plain ht cs i _ (he.sub 1) (fun d hd => h d (mem_cons_of_mem _ hd))

/-! ## Words -/

variable {p rel : List UInt8}

theorem skip_slashes (h : p.dropWhile (· == 47) ≠ []) : ∃ x q, p.dropWhile (· == 47) = x :: q ∧ (x != 47) = true := by
  obtain ⟨x, q, hq⟩ := exists_cons_of_ne_nil h
  have hx := head_dropWhile_not (· == (47 : UInt8)) h
  simp only [hq, head_cons] at hx
  exact ⟨x, q, hq, by rw [bne, hx]; rfl⟩

theorem words_plain : ∀ (n : Nat) (p : List UInt8), ∀ c ∈ words n p, c ≠ [] ∧ (47 : UInt8) ∉ c
  | 0, _, _, hc => absurd hc not_mem_nil
  | n + 1, p, c, hc => by
    simp only [words] at hc
    split at hc
    · exact absurd hc not_mem_nil
    rename_i hne
    rcases mem_cons.1 hc with rfl | hc
    · refine ⟨fun hnil => ?_, fun hmem => ?_⟩
      · obtain ⟨x, q, hq, hx⟩ := skip_slashes hne
        rw [hq, takeWhile_cons, if_pos hx] at hnil
        cases hnil
      · have := mem_takeWhile_imp hmem
        simp at this
    · exact words_plain n _ c hc

theorem words_fuel : ∀ (n m : Nat) (p : List UInt8), p.length ≤ n → p.length ≤ m → words n p = words m p
  | 0, 0, _, _, _ => rfl
  | 0, m + 1, p, hn, _ => by
    obtain rfl := eq_nil_of_length_eq_zero (Nat.le_zero.1 hn)
    rfl
  | n + 1, 0, p, _, hm => by
    obtain rfl := eq_nil_of_length_eq_zero (Nat.le_zero.1 hm)
    rfl
  | n + 1, m + 1, p, hn, hm => by
    simp only [words]
    split
    · rfl
    rename_i hne
    have hlt : ((p.dropWhile (· == 47)).dropWhile (· != 47)).length < p.length := by
      obtain ⟨x, q, hq, hx⟩ := skip_slashes hne
      have h1 := length_dropWhile_le (· == (47 : UInt8)) p
      have h2 := length_dropWhile_le (· != (47 : UInt8)) q
      rw [hq, length_cons] at h1
      rw [hq, dropWhile_cons, if_pos hx]
      omega
    rw [words_fuel n m _ (by omega) (by omega)]

theorem words_slash (n : Nat) (p : List UInt8) : words n (47 :: p) = words n p := by
  cases n with
  | zero => rfl
  | succ n => simp [words]

theorem words_comp {c : List UInt8} (n : Nat) (hne : c ≠ []) (hc : (47 : UInt8) ∉ c) (hp : p.head?.all (· == 47) = true) :
    words (n + 1) (c ++ p) = c :: words n p := by
  have hdrop : (c ++ p).dropWhile (· == 47) = c ++ p := by
    cases c with
    | nil => exact absurd rfl hne
    | cons x c =>
      rw [cons_append, dropWhile_cons, if_neg]
      simp only [beq_iff_eq]
      exact fun hx => hc (hx ▸ mem_cons_self)
  have htake : c.takeWhile (· != 47) = c := takeWhile_eq_self_iff.2 (fun x hx => by
    rw [bne_iff_ne]
    exact fun h47 => hc (h47 ▸ hx))
  have hp' : p.takeWhile (· != 47) = [] ∧ p.dropWhile (· != 47) = p := by
    cases p with
    | nil => exact ⟨rfl, rfl⟩
    | cons y p =>
      have hy : y = 47 := by simpa using hp
      subst hy
      exact ⟨rfl, rfl⟩
  simp only [words, hdrop]
  rw [if_neg (by simp [hne]), takeWhile_append, dropWhile_append, htake, if_pos rfl, hp'.1, append_nil]
  have hnil : c.dropWhile (· != 47) = [] := by
    have := takeWhile_append_dropWhile (p := (· != (47 : UInt8))) (l := c)
    rw [htake] at this
    simpa using this
  rw [hnil, isEmpty_nil, if_pos rfl, hp'.2]

def slashed (cs : List Name) : List UInt8 := cs.flatMap (47 :: ·)

def pathText (cs : List Name) : List UInt8 := if cs = [] then [47] else slashed cs

theorem slashed_cons (c : Name) (cs : List Name) : slashed (c :: cs) = 47 :: c ++ slashed cs := rfl

theorem words_slashed : ∀ (cs : List Name) (n : Nat) (p : List UInt8), (∀ c ∈ cs, Plain c) → p.head?.all (· == 47) = true →
    words (cs.length + n) (slashed cs ++ p) = cs ++ words n p
  | [], n, p, _, _ => by rw [length_nil, zero_add]; rfl
  | c :: cs, n, p, h, hp => by
    have hc := h c mem_cons_self
    have hrest : (slashed cs ++ p).head?.all (· == 47) = true := by
      cases cs with
      | nil => exact hp
      | cons d cs => rfl
    rw [length_cons, show cs.length + 1 + n = cs.length + n + 1 by omega, slashed_cons, cons_append, cons_append,
      words_slash, append_assoc, words_comp _ hc.ne hc.slash hrest,
      words_slashed cs n p (fun d hd => h d (mem_cons_of_mem _ hd)) hp]
    rfl

theorem components_succ (n : Nat) (hne : p.dropWhile (· == 47) ≠ [])
    (hle : ((p.dropWhile (· == 47)).takeWhile (· != 47)).length ≤ 31) :
    components (n + 1) p = (p.dropWhile (· == 47)).takeWhile (· != 47) ::
      components n ((p.dropWhile (· == 47)).dropWhile (· != 47)) := by
  have hcomp : nextComp (p.dropWhile (· == 47)) = (p.dropWhile (· == 47)).takeWhile (· != 47) := take_of_length_le hle
  have hdrop : ∀ q : List UInt8, q.drop (q.takeWhile (· != 47)).length = q.dropWhile (· != 47) := fun q => by
    have hq := takeWhile_append_dropWhile (p := (· != (47 : UInt8))) (l := q)
    calc q.drop (q.takeWhile (· != 47)).length
        = (q.takeWhile (· != 47) ++ q.dropWhile (· != 47)).drop (q.takeWhile (· != 47)).length := by rw [hq]
      _ = q.dropWhile (· != 47) := drop_left
  simp only [components]
  rw [if_neg hne, hcomp, hdrop]

theorem components_eq_words : ∀ (n : Nat) (p : List UInt8), (∀ c ∈ words n p, c.length ≤ 31) → components n p = words n p
  | 0, _, _ => rfl
  | n + 1, p, h => by
    by_cases hne : p.dropWhile (· == 47) = []
    · simp only [components, words, hne, if_true]
    · simp only [words] at h ⊢
      rw [if_neg hne] at h ⊢
      rw [components_succ n hne (h _ mem_cons_self), components_eq_words n _ (fun c hc => h c (mem_cons_of_mem _ hc))]

theorem components_of_walk (ht : v.Tree) : ∀ (n : Nat) (p : List UInt8) (cur : Nat) (e : Heap),
    v.walk e cur (components n p) = some ino → components n p = words n p
  | 0, _, _, _, _ => rfl
  | n + 1, p, cur, e, h => by
    by_cases hne : p.dropWhile (· == 47) = []
    · simp only [components, words, hne, if_true]
    by_cases hle : ((p.dropWhile (· == 47)).takeWhile (· != 47)).length ≤ 31
    · rw [components_succ n hne hle] at h ⊢
      simp only [words]
      rw [if_neg hne]
      unfold Vol.walk at h
      split at h
      · rw [components_of_walk ht n _ _ _ h]
      split at h
      · rw [components_of_walk ht n _ _ _ h]
      · split at h
        · cases h
        · rw [components_of_walk ht n _ _ _ h]
    · have hlen : (nextComp (p.dropWhile (· == 47))).length = 31 := by
        rw [nextComp, length_take]
        omega
      have hdot : nextComp (p.dropWhile (· == 47)) ≠ [46] := fun hx => by rw [hx] at hlen; cases hlen
      have hdots : nextComp (p.dropWhile (· == 47)) ≠ [46, 46] := fun hx => by rw [hx] at hlen; cases hlen
      simp only [components] at h
      rw [if_neg hne] at h
      unfold Vol.walk at h
      rw [if_neg hdot, if_neg hdots] at h
      split at h
      · cases h
      · rename_i i hi
        have := look_length ht (look_of_dirLookupName ht hi)
        omega

/-! ## The normaliser -/

theorem length_le_canon : ∀ (ws st : List Name), Shallow st ws → 2 ≤ st.length → st.length ≤ (canon st ws).length
  | [], _, _, _ => le_refl _
  | c :: ws, st, h, h2 => by
    obtain ⟨hup, hrest⟩ := h
    have hstep : st.length ≤ (canonStep st c).length := by
      unfold canonStep
      split
      · exact le_refl _
      split
      · rename_i hdots
        have := hup hdots
        omega
      · rw [length_append]
        omega
    exact hstep.trans (length_le_canon ws (canonStep st c) hrest (h2.trans hstep))

theorem foldl_pushComp : ∀ (ws st : List Name), Shallow st ws → (∀ c ∈ ws, c.length ≤ 23) → (canon st ws).length ≤ 16 →
    ws.foldl pushComp st = canon st ws
  | [], _, _, _, _ => rfl
  | c :: ws, st, h, hlen, h16 => by
    obtain ⟨-, hrest⟩ := h
    rw [canon, foldl_cons] at h16
    have hstep : pushComp st c = canonStep st c := by
      unfold pushComp canonStep
      split
      · rfl
      rename_i hdot
      split
      · rfl
      rename_i hdots
      have hroom : st.length < 16 := by
        by_contra hfull
        have hlong : (canonStep st c).length = st.length + 1 := by
          rw [canonStep, if_neg hdot, if_neg hdots, length_append, length_singleton]
        have := length_le_canon ws _ hrest (by omega)
        unfold canon at this
        omega
      have := hlen c mem_cons_self
      rw [if_pos ⟨hroom, by omega⟩]
    rw [foldl_cons, hstep]
    exact foldl_pushComp ws (canonStep st c) hrest (fun d hd => hlen d (mem_cons_of_mem _ hd)) h16

theorem render_slashed (size : Nat) : ∀ (cs : List Name) (i : Nat) (dst : List UInt8), 0 < i → (∀ c ∈ cs, c ≠ []) →
    dst.length + (slashed cs).length < size → render size i dst cs = dst ++ slashed cs
  | [], _, dst, _, _, _ => (append_nil dst).symm
  | c :: cs, i, dst, hi, hne, hlen => by
    have hc := length_pos_iff.2 (hne c mem_cons_self)
    rw [slashed_cons, length_append, length_cons] at hlen
    simp only [render]
    rw [if_pos (by omega), if_pos hi, take_of_length_le (by rw [length_append, length_singleton]; omega),
      render_slashed size cs (i + 1) _ (Nat.succ_pos i) (fun d hd => hne d (mem_cons_of_mem _ hd))
        (by rw [length_append, length_append, length_singleton]; omega), slashed_cons]
    simp

variable {cs : List Name}

theorem render_eq {size : Nat} (hsize : 4 ≤ size) (hne : ∀ c ∈ cs, c ≠ []) (hlen : (pathText cs).length < size) :
    render size 0 [47] cs = pathText cs := by
  cases cs with
  | nil => rfl
  | cons c cs =>
    have hc := length_pos_iff.2 (hne c mem_cons_self)
    rw [pathText, if_neg (cons_ne_nil c cs), slashed_cons] at hlen ⊢
    rw [length_append, length_cons] at hlen
    simp only [render]
    rw [length_singleton, if_pos (by omega), if_neg (lt_irrefl 0), length_singleton,
      take_of_length_le (by omega), render_slashed size cs (0 + 1) _ (Nat.succ_pos 0)
        (fun d hd => hne d (mem_cons_of_mem _ hd)) (by rw [length_append, length_singleton]; omega)]
    rfl

/-- What `path_resolve_str` would copy if `tmp` were long enough. -/
def fullText (base rel : List UInt8) : List UInt8 :=
  if rel.head? = some 47 then rel else (if base ≠ [] ∧ base.getLast? ≠ some 47 then base ++ [47] else base) ++ rel

theorem joined_eq {base : List UInt8} (h : (fullText base rel).length ≤ 255) : joined base rel = fullText base rel := by
  unfold joined fullText at *
  split
  · rename_i habs
    rw [if_pos habs] at h
    exact take_of_length_le h
  rename_i habs
  rw [if_neg habs, length_append] at h
  have hbase : base.length ≤ 255 := by
    split at h
    · rw [length_append] at h
      omega
    · omega
  dsimp only
  rw [take_of_length_le hbase, take_of_length_le (by omega)]

theorem slashed_append (cs ds : List Name) : slashed (cs ++ ds) = slashed cs ++ slashed ds := flatMap_append

theorem slashed_getLast (hne : cs ≠ []) (h : ∀ c ∈ cs, Plain c) : (slashed cs).getLast? ≠ some 47 := by
  rcases eq_nil_or_concat cs with rfl | ⟨cs, c, rfl⟩
  · exact absurd rfl hne
  rw [concat_eq_append] at h ⊢
  have hc := h c (by simp)
  have hlast : (slashed (cs ++ [c])).getLast? = c.getLast? := by
    rw [slashed_append, slashed_cons, getLast?_append, slashed, flatMap_nil, append_nil, getLast?_cons]
    cases hl : c.getLast? with
    | none => exact absurd (getLast?_eq_none_iff.1 hl) hc.ne
    | some x => rfl
  rw [hlast]
  exact fun hx => hc.slash (mem_of_getLast? hx)

theorem fullText_rel (h : ∀ c ∈ cs, Plain c) (hrel : rel.head? ≠ some 47) :
    fullText (pathText cs) rel = slashed cs ++ 47 :: rel := by
  unfold fullText pathText
  rw [if_neg hrel]
  by_cases hcs : cs = []
  · subst hcs
    rfl
  have hne : slashed cs ≠ [] := by
    obtain ⟨c, cs', rfl⟩ := exists_cons_of_ne_nil hcs
    exact cons_ne_nil _ _
  rw [if_neg hcs, if_pos ⟨hne, slashed_getLast hcs h⟩, append_assoc]
  rfl

theorem words_rel (h : ∀ c ∈ cs, Plain c) (hrel : rel.head? ≠ some 47) :
    words (fullText (pathText cs) rel).length (fullText (pathText cs) rel) = cs ++ words rel.length rel := by
  have hlen : cs.length ≤ (slashed cs).length := by
    induction cs with
    | nil => exact le_refl _
    | cons c cs ih =>
      have := ih (fun d hd => h d (mem_cons_of_mem _ hd))
      rw [slashed_cons, length_append, length_cons, length_cons]
      omega
  rw [fullText_rel h hrel, length_append, length_cons,
    words_fuel _ (cs.length + ((slashed cs).length - cs.length + rel.length + 1)) _
      (by rw [length_append, length_cons]) (by rw [length_append, length_cons]; omega),
    words_slashed cs _ _ h rfl, words_slash, words_fuel _ rel.length rel (by omega) (le_refl _)]

/-! ## sys_chdir -/

/-- A path on which the walk and the normaliser agree: it is not under `/proc` or `/dev`; the text fits `tmp`, the canonical
path `cwd_path` and the component stack; and no `..` is met with two components or more on the stack. -/
structure Cwd.Fits (cwd : Cwd) (path : List UInt8) : Prop where
  proc : procfsIsProcPath path = false
  dev : devfsIsDevPath path = false
  text : (fullText cwd.path path).length ≤ 255
  up : Shallow [] (words (fullText cwd.path path).length (fullText cwd.path path))
  comps : (canon [] (words (fullText cwd.path path).length (fullText cwd.path path))).length ≤ 16
  bytes : (pathText (canon [] (words (fullText cwd.path path).length (fullText cwd.path path)))).length ≤ 127

/-- The string is the canonical path of components that lead to the inode. -/
structure Cwd.At (v : Vol) (cwd : Cwd) (cs : List Name) : Prop where
  path : cwd.path = pathText cs
  plain : ∀ c ∈ cs, Plain c
  leads : v.follow v.sb.rootIno cs = some cwd.ino

theorem canon_all {P : Name → Prop} : ∀ (ws st : List Name), (∀ c ∈ st, P c) → (∀ c ∈ ws, c ≠ [46] → c ≠ [46, 46] → P c) →
    ∀ c ∈ canon st ws, P c
  | [], _, hst, _ => hst
  | w :: ws, st, hst, hws => by
    refine canon_all ws (canonStep st w) ?_ (fun c hc => hws c (mem_cons_of_mem _ hc))
    unfold canonStep
    split
    · exact hst
    rename_i hdot
    split
    · exact fun c hc => hst c (mem_of_mem_dropLast hc)
    rename_i hdots
    intro c hc
    rcases mem_append.1 hc with hc | hc
    · exact hst c hc
    · rw [mem_singleton.1 hc]
      exact hws w mem_cons_self hdot hdots

variable {cwd : Cwd}

theorem Cwd.At.start (h : cwd.At v cs) (path : List UInt8) : ∃ st, (∀ c ∈ st, Plain c) ∧
      v.follow v.sb.rootIno st = some (if path.head? = some 47 then v.sb.rootIno else cwd.ino) ∧
      words (fullText cwd.path path).length (fullText cwd.path path) = st ++ words path.length path := by
  by_cases habs : path.head? = some 47
  · refine ⟨[], fun c hc => absurd hc not_mem_nil, by rw [if_pos habs]; rfl, ?_⟩
    rw [fullText, if_pos habs]
    rfl
  · refine ⟨cs, h.plain, by rw [if_neg habs]; exact h.leads, ?_⟩
    rw [h.path]
    exact words_rel h.plain habs

theorem sysChdir_at (ht : v.Tree) {path : List UInt8} (h : cwd.At v cs) (hfit : cwd.Fits path) :
    ∃ cs', (v.sysChdir e cwd path).1.At v cs' := by
  unfold sysChdir
  split
  · exact ⟨cs, h⟩
  split
  · exact ⟨cs, h⟩
  · rename_i ino hino
    split
    · rw [vfsResolveIno, hfit.proc, hfit.dev] at hino
      simp only [false_eq_true, if_false] at hino
      obtain ⟨st, hplain, hstart, hwords⟩ := h.start path
      have hup := hfit.up
      have hcomps := hfit.comps
      have hbytes := hfit.bytes
      rw [hwords] at hup hcomps hbytes
      unfold resolve at hino
      rw [components_of_walk ht _ _ _ _ hino] at hino
      have hstc : canon [] st = st := canon_plain st [] hplain
      set r := words path.length path
      have hsh : Shallow st r := by
        have := Shallow.right st [] _ hup
        rwa [hstc] at this
      obtain ⟨hlead, hshort⟩ := walk_canon ht _ st _ e hstart hsh hino
      have hcanon : canon [] (st ++ words path.length path) = canon st r := by
        rw [canon_append, hstc]
      have hres : ∀ c ∈ canon st r, Plain c := canon_all _ _ hplain (fun c hc hdot hdots =>
        ⟨(words_plain _ _ c hc).1, hshort c hc, (words_plain _ _ c hc).2, hdot, hdots⟩)
      refine ⟨canon st r, ?_, hres, hlead⟩
      rw [hcanon] at hbytes
      have hpush : (st ++ words path.length path).foldl pushComp [] = canon st r := by
        rw [foldl_pushComp _ _ hup _ hcomps, hcanon]
        intro c hc
        rcases mem_append.1 hc with hc | hc
        · exact (hplain c hc).short
        · exact hshort c hc
      dsimp only
      rw [pathResolveStr, joined_eq hfit.text, hwords, hpush]
      exact render_eq (by decide) (fun c hc => (hres c hc).ne) (by omega)
    · exact ⟨cs, h⟩

theorem Cwd.At.resolve (ht : v.Tree) (he : e.Ok) (h : cwd.At v cs) (base : Nat) :
    v.resolve e base cwd.path = some cwd.ino := by
  have hhead : cwd.path.head? = some 47 := by
    rw [h.path, pathText]
    cases cs with
    | nil => rfl
    | cons c cs => rfl
  have hwords : words cwd.path.length cwd.path = cs := by
    rw [h.path, pathText]
    split
    · rename_i hcs
      rw [hcs]
      rfl
    · have hw := words_slashed cs (slashed cs).length [] h.plain rfl
      rw [append_nil] at hw
      rw [words_fuel _ (cs.length + (slashed cs).length) _ (le_refl _) (by omega), hw]
      cases (slashed cs).length <;> exact append_nil cs
  unfold Vol.resolve
  rw [if_pos hhead, components_eq_words _ _ (fun c hc => ?_), hwords, walk_plain ht cs _ e he h.plain, h.leads]
  have := (h.plain c (hwords ▸ hc)).short
  omega

/-- The working directory the boot sequence gives the shell; `sys_fork` copies it. -/
def Vol.rootCwd (v : Vol) : Cwd := ⟨v.sb.rootIno, [47]⟩

def Vol.chdirStep (v : Vol) (cwd : Cwd) (call : Heap × List UInt8) : Cwd × Bool := v.sysChdir call.1 cwd call.2

/-- **The working directory's string resolves to its inode**, after every sequence of `sys_chdir` calls on paths on which
the walk and the normaliser agree. -/
theorem chdir_agrees (v : Vol) (ht : v.Tree) (calls : List (Heap × List UInt8))
    (hfit : ∀ pre call post, calls = pre ++ call :: post → (run v.chdirStep v.rootCwd pre).1.Fits call.2)
    (e : Heap) (he : e.Ok) :
    v.resolve e v.sb.rootIno (run v.chdirStep v.rootCwd calls).1.path = some (run v.chdirStep v.rootCwd calls).1.ino := by
  obtain ⟨cs, h⟩ := run_inv (P := fun cwd => ∃ cs, cwd.At v cs) (C := fun cwd call => cwd.Fits call.2)
    (fun cwd call ⟨cs, h⟩ hf => sysChdir_at ht h hf) calls v.rootCwd
    ⟨[], rfl, fun c hc => absurd hc not_mem_nil, rfl⟩ hfit
  exact h.resolve ht he v.sb.rootIno

/-! ## A nested directory -/

def calm : Heap := ⟨fun _ => true, fun _ _ => 0⟩

def rootVol : Vol := blankVol.putInode 0 (Inode.new modeDir)

def nestedVol : Vol := ((rootVol.mkdir calm 0 [97]).1.mkdir calm 1 [98]).1

theorem nestedVol_tree : nestedVol.Tree := by
  have hcount : nestedVol.sb.inodeCount = 8 := by decide +kernel
  have hdirs : ∀ i < 8, (nestedVol.inode i).isDir = true → (nestedVol.inode i).size % 32 = 0 ∧
      (nestedVol.inode i).size ≤ 512 ∧ ((nestedVol.inode i).size ≠ 0 → ptr nestedVol.disk (nestedVol.inode i) (slotOf 0) ≠ 0) ∧
      ∀ k < (nestedVol.inode i).size / 32, (nestedVol.byteAt i (32 * k + 6)).toNat ≤ 23 := by
    decide +kernel
  intro i hi hdir
  obtain ⟨hwhole, hsize, hmap, hnames⟩ := hdirs i (hcount ▸ hi) hdir
  refine ⟨hdir, hwhole, fun l hl => ?_, fun r hr => ?_⟩
  · obtain rfl : l = 0 := by omega
    exact hmap (by omega)
  · obtain ⟨k, hk, rfl⟩ := mem_map.1 hr
    rw [direntAt_name_length]
    exact hnames k (mem_range.1 hk)

/-- Into `/a` and back with `..`, which the root answers. -/
theorem chdir_agrees_parent : nestedVol.resolve calm nestedVol.sb.rootIno
      (run nestedVol.chdirStep nestedVol.rootCwd [(calm, [47, 97]), (calm, [46, 46])]).1.path =
    some (run nestedVol.chdirStep nestedVol.rootCwd [(calm, [47, 97]), (calm, [46, 46])]).1.ino := by
  refine chdir_agrees nestedVol nestedVol_tree [(calm, [47, 97]), (calm, [46, 46])] ?_ calm (fun _ => rfl)
  have hpath : (run nestedVol.chdirStep nestedVol.rootCwd [(calm, [47, 97])]).1.path = [47, 97] := by decide +kernel
  refine splits_cons.2 ⟨⟨by decide, by decide, by decide, by decide, by decide, by decide⟩, splits_cons.2 ⟨?_, splits_nil⟩⟩
  refine ⟨by decide, by decide, ?_, ?_, ?_, ?_⟩ <;> rw [hpath] <;> decide

/-- **`..` from two levels down**: the process is in the root, and its string says `/a`. -/
theorem chdir_diverges : nestedVol.Tree ∧
    (run nestedVol.chdirStep nestedVol.rootCwd [(calm, [47, 97, 47, 98]), (calm, [46, 46])]).2 = [true, true] ∧
    (run nestedVol.chdirStep nestedVol.rootCwd [(calm, [47, 97, 47, 98]), (calm, [46, 46])]).1.path = [47, 97] ∧
    (run nestedVol.chdirStep nestedVol.rootCwd [(calm, [47, 97, 47, 98]), (calm, [46, 46])]).1.ino = 0 ∧
    nestedVol.resolve calm nestedVol.sb.rootIno [47, 97] = some 1 :=
  ⟨nestedVol_tree, by decide +kernel, by decide +kernel, by decide +kernel, by decide +kernel⟩

end Noxis
