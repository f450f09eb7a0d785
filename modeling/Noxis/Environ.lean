import Noxis.CStr
/-!
# Environ — environment variables (`proc/syscalls.c`)

The environment of a process is a flat table of 32 slots of 160 bytes, `KEY=VALUE` and a NUL in each of the first `envc`.  A
new value is written over the old one, which leaves its tail behind the NUL, and a removed entry is closed up by moving the
later slots down.  The table is a byte store here, `env[i][j]` being the byte `160 * i + j`, so that an index past the slot
reads what the code reads.  A call answers its result and the bytes it stores to the caller's buffer.

The lengths are `int`s in the source: strings of 2³¹ bytes and more are not modelled.
-/
namespace Noxis

open List Option Bool Function Prod Nat
namespace Environ

/-! ## The code -/

def ENV_MAX : Nat := 32
def ENV_SLOT : Nat := 160

def eqSign : UInt8 := 61

structure Table where
  env : Nat → UInt8
  envc : Nat

def keyAt (m : Nat → UInt8) : List UInt8 → Nat → Bool
  | [], a => m a == eqSign
  | c :: key, a => m a == c && keyAt m key (a + 1)

def Table.find (t : Table) (key : List UInt8) : Option Nat :=
  (List.range t.envc).find? fun i => keyAt t.env key (ENV_SLOT * i)

def Table.string (t : Table) (a : Nat) : Option (List UInt8) := cstr t.env (ENV_MAX * ENV_SLOT - a) a

def intOf (x : Nat) : Int := if x % 2 ^ 32 < 2 ^ 31 then (x % 2 ^ 32 : Nat) else (x % 2 ^ 32 : Nat) - 2 ^ 32

/-- The stores to the caller's buffer of `bufsz` bytes, index and byte. -/
abbrev Stores := List (Int × UInt8)

def stored (bs : List UInt8) : Stores := bs.zipIdx.map fun x => ((x.2 : Int), x.1)

/-- The copy to the buffer.  C leaves `(int)bufsz - 1` undefined for the least `int`; the index is then some negative one. -/
def copyOut (buf : Option Nat) (s : List UInt8) : Stores :=
  match buf with
  | none => []
  | some bufsz =>
    if 0 < bufsz then
      let cp : Int := if (s.length : Int) < intOf bufsz - 1 then s.length else intOf bufsz - 1
      stored (s.take cp.toNat) ++ [(cp, 0)]
    else []

structure Reply where
  ret : Int
  stores : Stores
  deriving DecidableEq, Repr

def Table.sysGetenv (t : Table) (key : List UInt8) (buf : Option Nat) : Option Reply :=
  match t.find key with
  | none => some ⟨-1, []⟩
  | some i => (t.string (ENV_SLOT * i + key.length + 1)).map fun val => ⟨val.length, copyOut buf val⟩

def entry (key val : List UInt8) : List UInt8 := key ++ eqSign :: (val ++ [0])

def Table.sysSetenv (t : Table) (key val : List UInt8) : Table × Int :=
  if ENV_SLOT < key.length + 1 + val.length + 1 then (t, -1)
  else match t.find key with
    | some i => ({ t with env := place t.env (ENV_SLOT * i) (entry key val) }, 0)
    | none =>
      if ENV_MAX ≤ t.envc then (t, -1)
      else ({ env := place t.env (ENV_SLOT * t.envc) (entry key val), envc := t.envc + 1 }, 0)

/-- `for (k = 0; k < ENV_SLOT; k++) env[j][k] = env[j+1][k];` -/
def moveDown (m : Nat → UInt8) (j : Nat) : Nat → UInt8 :=
  fun x => if ENV_SLOT * j ≤ x ∧ x < ENV_SLOT * (j + 1) then m (x + ENV_SLOT) else m x

def Table.sysUnsetenv (t : Table) (key : List UInt8) : Table × Int :=
  match t.find key with
  | none => (t, -1)
  | some i => ({ env := (List.range' i (t.envc - 1 - i)).foldl moveDown t.env, envc := t.envc - 1 }, 0)

def Table.sysGetenvAt (t : Table) (idx : Nat) (buf : Option Nat) : Option Reply :=
  if (t.envc : Int) ≤ intOf idx then some ⟨-1, []⟩
  else (t.string (ENV_SLOT * idx)).map fun s => ⟨s.length, copyOut buf s⟩

structure Key where
  text : List UInt8
  plain : 0 ∉ text
  noEq : eqSign ∉ text
  deriving DecidableEq

structure Val where
  text : List UInt8
  plain : 0 ∉ text
  deriving DecidableEq

inductive Call where
  | getenv (key : Key) (buf : Option Nat)
  | setenv (key : Key) (val : Val)
  | unsetenv (key : Key)
  | getenvAt (idx : Nat) (buf : Option Nat)

def Table.step (t : Table) : Call → Table × Option Reply
  | .getenv key buf => (t, t.sysGetenv key.text buf)
  | .setenv key val => ((t.sysSetenv key.text val.text).1, some ⟨(t.sysSetenv key.text val.text).2, []⟩)
  | .unsetenv key => ((t.sysUnsetenv key.text).1, some ⟨(t.sysUnsetenv key.text).2, []⟩)
  | .getenvAt idx buf => (t, t.sysGetenvAt idx buf)

def Table.run : Table → List Call → Table × List (Call × Option Reply)
  | t, [] => (t, [])
  | t, c :: cs =>
    let r := (t.step c).1.run cs
    (r.1, (c, (t.step c).2) :: r.2)

/-! ## What a call stores -/

variable {n : Nat}

theorem intOf_small (h : n < 2 ^ 31) : intOf n = n := by
  unfold intOf
  rw [mod_eq_of_lt (by omega), if_pos h]

theorem stored_concat (bs : List UInt8) (b : UInt8) : stored (bs ++ [b]) = stored bs ++ [((bs.length : Int), b)] := by
  unfold stored
  rw [zipIdx_append, map_append, zero_add]
  rfl

/-- **The caller gets the string, cut to its buffer, and a NUL.** -/
theorem copyOut_eq (h1 : 1 ≤ n) (h2 : n < 2 ^ 31) (s : List UInt8) : copyOut (some n) s = stored (s.take (n - 1) ++ [0]) := by
  unfold copyOut
  dsimp only
  rw [if_pos (show 0 < n from h1), intOf_small h2, stored_concat, length_take]
  split
  next hlt => rw [Int.toNat_natCast, take_of_length_le (le_refl _), take_of_length_le (by omega), min_eq_right (by omega)]
  next hge =>
    have hcp : (n : Int) - 1 = (n - 1 : Nat) := by omega
    rw [hcp, Int.toNat_natCast, min_eq_left (by omega)]

/-! ## The table as a list of entries -/

structure Rep (t : Table) (kvs : List (Key × Val)) : Prop where
  count : t.envc = kvs.length
  few : kvs.length ≤ ENV_MAX
  lies : ∀ i (h : i < kvs.length), Lies t.env (ENV_SLOT * i) (entry kvs[i].1.text kvs[i].2.text)
  fits : ∀ x ∈ kvs, x.1.text.length + x.2.text.length + 2 ≤ ENV_SLOT
  nodup : (kvs.map Prod.fst).Nodup

theorem length_entry (key val : List UInt8) : (entry key val).length = key.length + val.length + 2 := by
  unfold entry
  simp only [length_append, length_cons, length_nil]
  omega

/-- **The comparison finds the key and nothing else**: neither of the two contains the `=` that ends the other. -/
theorem keyAt_iff {m : Nat → UInt8} {rest : List UInt8} : ∀ {k k' : List UInt8} {a : Nat}, Lies m a (k' ++ eqSign :: rest) →
    eqSign ∉ k → eqSign ∉ k' → (keyAt m k a = true ↔ k = k')
  | [], [], a, h, _, _ => by
    rw [nil_append, lies_cons] at h
    rw [keyAt, beq_iff_eq]
    exact ⟨fun _ => rfl, fun _ => h.1⟩
  | [], c' :: k', a, h, _, h2 => by
    rw [cons_append, lies_cons] at h
    rw [keyAt, beq_iff_eq, h.1]
    exact ⟨fun he => absurd (he ▸ mem_cons_self) h2, fun he => by cases he⟩
  | c :: k, [], a, h, h1, _ => by
    rw [nil_append, lies_cons] at h
    rw [keyAt, and_eq_true, beq_iff_eq, h.1]
    exact ⟨fun he => absurd (he.1 ▸ mem_cons_self) h1, fun he => by cases he⟩
  | c :: k, c' :: k', a, h, h1, h2 => by
    rw [cons_append, lies_cons] at h
    rw [keyAt, and_eq_true, beq_iff_eq, h.1, cons.injEq,
      keyAt_iff h.2 (fun hm => h1 (mem_cons_of_mem _ hm)) (fun hm => h2 (mem_cons_of_mem _ hm)), eq_comm]

section Entries

variable {t : Table} {kvs : List (Key × Val)} {k : Key}

theorem Key.ext_text {k' : Key} (h : k.text = k'.text) : k = k' := by
  cases k
  cases k'
  cases h
  rfl

variable {i : Nat}

theorem Rep.keyAt (h : Rep t kvs) (k : Key) (hi : i < kvs.length) :
    keyAt t.env k.text (ENV_SLOT * i) = true ↔ kvs[i].1 = k := by
  rw [keyAt_iff (h.lies i hi) k.noEq kvs[i].1.noEq]
  exact ⟨fun he => (Key.ext_text he).symm, fun he => by rw [he]⟩

theorem Rep.find_cases (h : Rep t kvs) (k : Key) : (t.find k.text = none ∧ ∀ x ∈ kvs, x.1 ≠ k) ∨
      ∃ (i : Nat) (hi : i < kvs.length), t.find k.text = some i ∧ kvs[i].1 = k := by
  cases hf : t.find k.text with
  | none =>
    refine .inl ⟨rfl, fun x hx he => ?_⟩
    obtain ⟨i, hi, rfl⟩ := getElem_of_mem hx
    have hnone := find?_eq_none.mp hf i (mem_range.mpr (by rw [h.count]; exact hi))
    exact hnone ((h.keyAt k hi).mpr he)
  | some i =>
    have hi : i < kvs.length := by
      have hm := mem_range.mp (mem_of_find?_eq_some hf)
      rwa [h.count] at hm
    have hkey := find?_some (p := fun i => Environ.keyAt t.env k.text (ENV_SLOT * i)) hf
    exact .inr ⟨i, hi, rfl, (h.keyAt k hi).mp hkey⟩

variable {v : Val}

section

variable (h : Rep t kvs)
include h

theorem Rep.unique {v' : Val} (h1 : (k, v) ∈ kvs) (h2 : (k, v') ∈ kvs) : v = v' := by
  have heq := inj_on_of_nodup_map h.nodup h1 h2 rfl
  exact (mk.injEq .. ▸ heq).2

section

variable (hi : i < kvs.length)
include hi

theorem Rep.index_eq {j : Nat} (hj : j < kvs.length) (he : kvs[i].1 = kvs[j].1) : i = j := by
  have hi' : i < (kvs.map fst).length := by rw [length_map]; exact hi
  have hj' : j < (kvs.map fst).length := by rw [length_map]; exact hj
  have heq : (kvs.map fst)[i] = (kvs.map fst)[j] := by rw [getElem_map, getElem_map, he]
  exact h.nodup.getElem_inj_iff.mp heq

theorem Rep.slot_le : (entry kvs[i].1.text kvs[i].2.text).length ≤ ENV_SLOT := by
  rw [length_entry]
  exact h.fits _ (getElem_mem hi)

/-! ## Reading -/

theorem Rep.string_value : t.string (ENV_SLOT * i + kvs[i].1.text.length + 1) = some kvs[i].2.text := by
  have hlies : Lies t.env (ENV_SLOT * i + kvs[i].1.text.length + 1) (kvs[i].2.text ++ [0]) :=
    (lies_cons.mp (h.lies i hi).append_right).2
  refine hlies.cstr kvs[i].2.plain ?_
  have hfits := h.fits _ (getElem_mem hi)
  have hfew := h.few
  unfold ENV_SLOT ENV_MAX at *
  omega

theorem Rep.string_entry : t.string (ENV_SLOT * i) = some (kvs[i].1.text ++ eqSign :: kvs[i].2.text) := by
  have hlies : Lies t.env (ENV_SLOT * i) ((kvs[i].1.text ++ eqSign :: kvs[i].2.text) ++ [0]) := by
    rw [append_assoc, cons_append]
    exact h.lies i hi
  refine hlies.cstr ?_ ?_
  · rw [mem_append, mem_cons]
    rintro (hm | hm | hm)
    · exact kvs[i].1.plain hm
    · cases hm
    · exact kvs[i].2.plain hm
  · have hfits := h.fits _ (getElem_mem hi)
    have hfew := h.few
    rw [length_append, length_cons]
    unfold ENV_SLOT ENV_MAX at *
    omega

end

theorem Rep.getenv_some (hm : (k, v) ∈ kvs) (buf : Option Nat) :
    t.sysGetenv k.text buf = some ⟨v.text.length, copyOut buf v.text⟩ := by
  unfold Table.sysGetenv
  obtain ⟨-, hno⟩ | ⟨i, hi, hf, rfl⟩ := h.find_cases k
  · exact absurd rfl (hno _ hm)
  · have hv : kvs[i].2 = v := h.unique (getElem_mem hi) hm
    rw [hf]
    dsimp only
    rw [h.string_value hi, hv]
    rfl

theorem Rep.getenv_none (hm : ∀ v, (k, v) ∉ kvs) (buf : Option Nat) : t.sysGetenv k.text buf = some ⟨-1, []⟩ := by
  unfold Table.sysGetenv
  obtain ⟨hf, -⟩ | ⟨i, hi, hf, rfl⟩ := h.find_cases k
  · rw [hf]
  · exact absurd (getElem_mem hi) (hm kvs[i].2)

theorem Rep.getenvAt (hi : i < kvs.length) (buf : Option Nat) :
    t.sysGetenvAt i buf = some ⟨(kvs[i].1.text ++ eqSign :: kvs[i].2.text).length,
    copyOut buf (kvs[i].1.text ++ eqSign :: kvs[i].2.text)⟩ := by
  have hfew := h.few
  unfold Table.sysGetenvAt
  rw [h.count, intOf_small (by unfold ENV_MAX at hfew; omega), if_neg (by omega), h.string_entry hi]
  rfl

/-! ## Setting -/

theorem Rep.overwrite (hi : i < kvs.length) (hfit : kvs[i].1.text.length + v.text.length + 2 ≤ ENV_SLOT) :
    Rep { t with env := place t.env (ENV_SLOT * i) (entry kvs[i].1.text v.text) } (kvs.set i (kvs[i].1, v)) := by
  have hkeys : (kvs.set i (kvs[i].1, v)).map fst = kvs.map fst := calc
    (kvs.set i (kvs[i].1, v)).map fst = (kvs.map fst).set i kvs[i].1 := map_set
    _ = (kvs.set i kvs[i]).map fst := map_set.symm
    _ = kvs.map fst := by rw [set_getElem_self]
  refine ⟨by rw [length_set]; exact h.count, by rw [length_set]; exact h.few, fun j hj => ?_, fun x hx => ?_,
    by rw [hkeys]; exact h.nodup⟩
  · rw [length_set] at hj
    by_cases hij : i = j
    · subst hij
      rw [getElem_set_self]
      exact Lies.place
    rw [getElem_set_ne hij]
    refine (h.lies j hj).place_other ?_
    have h1 := h.slot_le hj
    rw [length_entry] at h1 ⊢
    rw [length_entry]
    unfold ENV_SLOT at *
    omega
  · rcases mem_or_eq_of_mem_set hx with hx | rfl
    · exact h.fits x hx
    · exact hfit

/-- **A new key** goes to the first free slot. -/
theorem Rep.append (hnew : ∀ x ∈ kvs, x.1 ≠ k) (hroom : kvs.length < ENV_MAX)
    (hfit : k.text.length + v.text.length + 2 ≤ ENV_SLOT) :
    Rep { env := place t.env (ENV_SLOT * t.envc) (entry k.text v.text), envc := t.envc + 1 } (kvs ++ [(k, v)]) := by
  refine ⟨by rw [length_append, h.count]; rfl, by rw [length_append]; exact hroom, fun j hj => ?_, fun x hx => ?_, ?_⟩
  · rw [length_append, length_singleton] at hj
    by_cases hjl : j < kvs.length
    · rw [getElem_append_left hjl]
      refine (h.lies j hjl).place_other (.inl ?_)
      have h1 := h.slot_le hjl
      rw [h.count]
      unfold ENV_SLOT at *
      omega
    · obtain rfl : j = kvs.length := by omega
      rw [getElem_concat_length rfl, h.count]
      exact Lies.place
  · rcases mem_append.mp hx with hx | hx
    · exact h.fits x hx
    · rw [mem_singleton.mp hx]
      exact hfit
  · rw [map_append, nodup_append]
    refine ⟨h.nodup, nodup_singleton _, fun a ha b hb => ?_⟩
    obtain ⟨x, hx, rfl⟩ := mem_map.mp ha
    rw [map_singleton, mem_singleton] at hb
    rw [hb]
    exact hnew x hx

end

/-! ## Removing -/

theorem foldl_moveDown (m : Nat → UInt8) (i : Nat) : ∀ n x, (range' i n).foldl moveDown m x =
    if ENV_SLOT * i ≤ x ∧ x < ENV_SLOT * (i + n) then m (x + ENV_SLOT) else m x
  | 0, x => by
    rw [range'_zero, foldl_nil, if_neg (by rw [add_zero]; omega)]
  | n + 1, x => by
    rw [range'_concat, foldl_append, foldl_cons, foldl_nil, moveDown, one_mul, foldl_moveDown m i n, foldl_moveDown m i n]
    unfold ENV_SLOT
    by_cases h1 : 160 * (i + n) ≤ x ∧ x < 160 * (i + n + 1)
    · rw [if_pos h1, if_neg (by omega), if_pos (by omega)]
    · rw [if_neg h1]
      by_cases h2 : 160 * i ≤ x ∧ x < 160 * (i + n)
      · rw [if_pos h2, if_pos (by omega)]
      · rw [if_neg h2, if_neg (by omega)]

/-- **A removed key**: the later entries move down one slot. -/
theorem Rep.remove (h : Rep t kvs) (hi : i < kvs.length) :
    Rep { env := (range' i (t.envc - 1 - i)).foldl moveDown t.env, envc := t.envc - 1 } (kvs.eraseIdx i) := by
  have hlen : (kvs.eraseIdx i).length = kvs.length - 1 := length_eraseIdx_of_lt hi
  have hfew := h.few
  refine ⟨by rw [hlen, h.count], by omega, fun j hj => ?_, fun x hx => h.fits x (mem_of_mem_eraseIdx hx), ?_⟩
  · rw [hlen] at hj
    have hslot : ∀ j', j' < kvs.length → (∀ k < ENV_SLOT, (range' i (t.envc - 1 - i)).foldl moveDown t.env (ENV_SLOT * j + k) =
        t.env (ENV_SLOT * j' + k)) → kvs[j']? = (kvs.eraseIdx i)[j]? →
        Lies ((range' i (t.envc - 1 - i)).foldl moveDown t.env) (ENV_SLOT * j)
          (entry (kvs.eraseIdx i)[j].1.text (kvs.eraseIdx i)[j].2.text) := fun j' hj' hmem hsame => by
      rw [getElem?_eq_getElem hj', getElem?_eq_getElem (by omega), some.injEq] at hsame
      rw [← hsame]
      intro k hk
      have hle := h.slot_le hj'
      rw [hmem k (by omega)]
      exact h.lies j' hj' k hk
    rw [getElem?_eraseIdx] at hslot
    by_cases hji : j < i
    · refine hslot j (by omega) (fun k hk => ?_) (by rw [if_pos hji])
      rw [foldl_moveDown, if_neg]
      unfold ENV_SLOT at *
      omega
    refine hslot (j + 1) (by omega) (fun k hk => ?_) (by rw [if_neg hji])
    rw [foldl_moveDown, if_pos]
    · rw [mul_succ, add_right_comm]
    · rw [h.count]
      unfold ENV_SLOT at *
      omega
  · rw [← eraseIdx_map]
    exact h.nodup.sublist (eraseIdx_sublist ..)

/-! ## One call -/

def Maps (kvs : List (Key × Val)) (m : Key → Option Val) : Prop := ∀ k v, (k, v) ∈ kvs ↔ m k = some v

variable {m : Key → Option Val}

theorem Rep.setenv_cases (h : Rep t kvs) (hm : Maps kvs m) (k : Key) (v : Val) :
    let Full := ENV_SLOT < k.text.length + v.text.length + 2 ∨ (m k = none ∧ t.envc = ENV_MAX)
    let r := t.sysSetenv k.text v.text
    (Full ∧ r = (t, -1)) ∨ (¬ Full ∧ r.2 = 0 ∧ ∃ kvs', Rep r.1 kvs' ∧ Maps kvs' (update m k (some v))) := by
  unfold Table.sysSetenv
  by_cases hlong : ENV_SLOT < k.text.length + v.text.length + 2
  · rw [if_pos (by omega)]
    exact .inl ⟨.inl hlong, rfl⟩
  rw [if_neg (by omega)]
  obtain ⟨hf, hno⟩ | ⟨i, hi, hf, rfl⟩ := h.find_cases k
  · have hnone : m k = none := by
      cases hk : m k with
      | none => rfl
      | some v' => exact absurd rfl (hno _ ((hm k v').mpr hk))
    rw [hf]
    dsimp only
    by_cases hfull : ENV_MAX ≤ t.envc
    · have hfew := h.few
      have hcount := h.count
      rw [if_pos hfull]
      exact .inl ⟨.inr ⟨hnone, by omega⟩, rfl⟩
    rw [if_neg hfull]
    refine .inr ⟨fun hc => hc.elim hlong fun hc => hfull (le_of_eq hc.2.symm), rfl, _,
      h.append hno (by rw [← h.count]; omega) (by omega), fun k' v' => ?_⟩
    rw [mem_append, mem_singleton, mk.injEq, hm k' v']
    by_cases hk : k' = k
    · subst hk
      rw [update_self, hnone, some.injEq]
      exact ⟨fun hc => hc.elim (fun hc => by cases hc) fun hc => hc.2.symm, fun hc => .inr ⟨rfl, hc.symm⟩⟩
    · rw [update_of_ne hk]
      exact ⟨fun hc => hc.elim id fun hc => absurd hc.1 hk, .inl⟩
  · have hold : m kvs[i].1 = some kvs[i].2 := (hm _ _).mp (getElem_mem hi)
    rw [hf]
    refine .inr ⟨fun hc => hc.elim hlong fun hc => ?_, rfl, _, h.overwrite hi (by omega), fun k' v' => ?_⟩
    · rw [hold] at hc
      cases hc.1
    by_cases hk : k' = kvs[i].1
    · subst hk
      rw [update_self, some.injEq]
      constructor
      · intro hin
        have heq := (h.overwrite hi (by omega)).unique hin (mem_set hi _)
        exact heq.symm
      · rintro rfl
        exact mem_set hi _
    · rw [update_of_ne hk, ← hm k' v']
      constructor
      · intro hin
        refine (mem_or_eq_of_mem_set hin).resolve_right fun hc => hk ?_
        rw [mk.injEq] at hc
        exact hc.1
      · intro hin
        obtain ⟨j, hj, hget⟩ := getElem_of_mem hin
        have hij : i ≠ j := fun hij => hk (by subst hij; rw [hget])
        exact mem_iff_getElem.mpr ⟨j, by rw [length_set]; exact hj, by rw [getElem_set_ne hij]; exact hget⟩

theorem Rep.unsetenv_cases (h : Rep t kvs) (hm : Maps kvs m) (k : Key) : (m k = none ∧ t.sysUnsetenv k.text = (t, -1)) ∨
      (m k ≠ none ∧ (t.sysUnsetenv k.text).2 = 0 ∧
        ∃ kvs', Rep (t.sysUnsetenv k.text).1 kvs' ∧ Maps kvs' (update m k none)) := by
  unfold Table.sysUnsetenv
  obtain ⟨hf, hno⟩ | ⟨i, hi, hf, rfl⟩ := h.find_cases k
  · rw [hf]
    refine .inl ⟨?_, rfl⟩
    cases hk : m k with
    | none => rfl
    | some v' => exact absurd rfl (hno _ ((hm k v').mpr hk))
  · have hold : m kvs[i].1 = some kvs[i].2 := (hm _ _).mp (getElem_mem hi)
    rw [hf]
    refine .inr ⟨by rw [hold]; exact some_ne_none _, rfl, _, h.remove hi, fun k' v' => ?_⟩
    rw [mem_eraseIdx_iff_getElem]
    by_cases hk : k' = kvs[i].1
    · subst hk
      rw [update_self]
      refine ⟨?_, fun hc => by cases hc⟩
      rintro ⟨j, hj, hne, hget⟩
      exact absurd (h.index_eq hj hi (by rw [hget])) hne
    · rw [update_of_ne hk, ← hm k' v', mem_iff_getElem]
      constructor
      · rintro ⟨j, hj, -, hget⟩
        exact ⟨j, hj, hget⟩
      · rintro ⟨j, hj, hget⟩
        exact ⟨j, hj, fun hij => hk (by subst hij; rw [hget]), hget⟩

/-! ## All calls -/

/-- What the variables are after one more call that was answered: the last successful `sys_setenv` of a key counts, until a
`sys_unsetenv` of it. -/
def record (m : Key → Option Val) (answered : Call × Option Reply) : Key → Option Val :=
  match answered.1 with
  | .setenv k v => if answered.2 = some ⟨0, []⟩ then update m k (some v) else m
  | .unsetenv k => update m k none
  | _ => m

def recorded (answered : List (Call × Option Reply)) : Key → Option Val := answered.foldl record fun _ => none

def Table.Shows (t : Table) (m : Key → Option Val) : Prop := ∃ kvs, Rep t kvs ∧ Maps kvs m

theorem Table.Shows.step (h : t.Shows m) (c : Call) : (t.step c).1.Shows (record m (c, (t.step c).2)) := by
  obtain ⟨kvs, hr, hm⟩ := h
  cases c with
  | getenv k buf => exact ⟨kvs, hr, hm⟩
  | getenvAt i buf => exact ⟨kvs, hr, hm⟩
  | setenv k v =>
    rw [Table.step]
    dsimp only
    obtain ⟨-, heq⟩ | ⟨-, hret, kvs', hr', hm'⟩ := hr.setenv_cases hm k v
    · rw [heq]
      exact ⟨kvs, hr, hm⟩
    · rw [hret]
      exact ⟨kvs', hr', hm'⟩
  | unsetenv k =>
    rw [Table.step]
    dsimp only
    obtain ⟨hnone, heq⟩ | ⟨-, -, kvs', hr', hm'⟩ := hr.unsetenv_cases hm k
    · rw [heq]
      have hsame : ∀ r, record m (.unsetenv k, r) = m := fun _ => by
        have hupd : update m k (m k) = m := Function.update_eq_self k m
        rw [hnone] at hupd
        exact hupd
      rw [hsame]
      exact ⟨kvs, hr, hm⟩
    · exact ⟨kvs', hr', hm'⟩

theorem Table.Shows.run : ∀ {cs : List Call} {t : Table} {m : Key → Option Val}, t.Shows m →
    (t.run cs).1.Shows ((t.run cs).2.foldl record m)
  | [], _, _, h => h
  | c :: cs, t, m, h => by
    have hrun : ((t.step c).1.run cs).1.Shows (((t.step c).1.run cs).2.foldl record (record m (c, (t.step c).2))) := (h.step c).run
    exact hrun

def Call.sets : Call → Option Key
  | .setenv k _ => some k
  | .unsetenv k => some k
  | _ => none

/-- The answer of `sys_getenv` and `sys_getenv_at` for the string `s` and a buffer of `n` bytes. -/
def given (s : List UInt8) (n : Nat) : Option Reply := some ⟨s.length, stored (s.take (n - 1) ++ [0])⟩

def pairText (x : Key × Val) : List UInt8 := x.1.text ++ eqSign :: x.2.text

structure FiniteMap (t : Table) (m : Key → Option Val) : Prop where
  reads : ∀ (k : Key) (n : Nat), 1 ≤ n → n < 2 ^ 31 →
    t.sysGetenv k.text (some n) = (m k).elim (some ⟨-1, []⟩) fun v => given v.text n
  setFails : ∀ (k : Key) (v : Val), (t.sysSetenv k.text v.text).2 = -1 ↔
    ENV_SLOT < k.text.length + v.text.length + 2 ∨ (m k = none ∧ t.envc = ENV_MAX)
  unsetFails : ∀ k : Key, (t.sysUnsetenv k.text).2 = -1 ↔ m k = none
  failed : ∀ (c : Call) (r : Reply), (t.step c).2 = some r → r.ret = -1 → (t.step c).1 = t
  others : ∀ (c : Call) (k : Key), c.sets ≠ some k → ∀ buf, (t.step c).1.sysGetenv k.text buf = t.sysGetenv k.text buf
  lists : ∃ kvs : List (Key × Val), kvs.length = t.envc ∧ (kvs.map Prod.fst).Nodup ∧ Maps kvs m ∧
    ∀ (i : Nat) (hi : i < kvs.length) (n : Nat), 1 ≤ n → n < 2 ^ 31 → t.sysGetenvAt i (some n) = given (pairText kvs[i]) n

theorem Table.Shows.getenv (h : t.Shows m) (k : Key) (buf : Option Nat) :
    t.sysGetenv k.text buf = (m k).elim (some ⟨-1, []⟩) fun v => some ⟨v.text.length, copyOut buf v.text⟩ := by
  obtain ⟨kvs, hr, hm⟩ := h
  cases hk : m k with
  | none => exact hr.getenv_none (fun v hv => by rw [hm k v, hk] at hv; cases hv) buf
  | some v => exact hr.getenv_some ((hm k v).mpr hk) buf

theorem record_of_ne {c : Call} (hc : c.sets ≠ some k) (r : Option Reply) : record m (c, r) k = m k := by
  cases c with
  | getenv => rfl
  | getenvAt => rfl
  | setenv k' v =>
    have hne : k ≠ k' := fun he => hc (by rw [he]; rfl)
    unfold record
    dsimp only
    split
    · exact update_of_ne hne ..
    · rfl
  | unsetenv k' =>
    have hne : k ≠ k' := fun he => hc (by rw [he]; rfl)
    exact update_of_ne hne ..

theorem Table.Shows.finiteMap (h : t.Shows m) : FiniteMap t m := by
  obtain ⟨kvs, hr, hm⟩ := h
  have hshows : t.Shows m := ⟨kvs, hr, hm⟩
  constructor
  case reads =>
    intro k n h1 h2
    rw [hshows.getenv k (some n)]
    cases m k with
    | none => rfl
    | some v => rw [Option.elim, Option.elim, copyOut_eq h1 h2]; rfl
  case setFails =>
    intro k v
    obtain ⟨hbad, heq⟩ | ⟨hgood, hret, -⟩ := hr.setenv_cases hm k v
    · rw [heq]
      exact ⟨fun _ => hbad, fun _ => rfl⟩
    · rw [hret]
      exact ⟨fun hc => (by cases hc), fun hc => absurd hc hgood⟩
  case unsetFails =>
    intro k
    obtain ⟨hnone, heq⟩ | ⟨hsome, hret, -⟩ := hr.unsetenv_cases hm k
    · rw [heq]
      exact ⟨fun _ => hnone, fun _ => rfl⟩
    · rw [hret]
      exact ⟨fun hc => (by cases hc), fun hc => absurd hc hsome⟩
  case failed =>
    intro c r hc hret
    cases c with
    | getenv => rfl
    | getenvAt => rfl
    | setenv k v =>
      obtain ⟨-, heq⟩ | ⟨-, hzero, -⟩ := hr.setenv_cases hm k v
      · rw [Table.step, heq]
      · rw [Table.step, hzero, some.injEq] at hc
        rw [← hc] at hret
        cases hret
    | unsetenv k =>
      obtain ⟨-, heq⟩ | ⟨-, hzero, -⟩ := hr.unsetenv_cases hm k
      · rw [Table.step, heq]
      · rw [Table.step, hzero, some.injEq] at hc
        rw [← hc] at hret
        cases hret
  case others =>
    intro c k hc buf
    rw [(hshows.step c).getenv k buf, hshows.getenv k buf, record_of_ne hc]
  case lists =>
    refine ⟨kvs, hr.count.symm, hr.nodup, hm, fun i hi n h1 h2 => ?_⟩
    rw [hr.getenvAt hi, copyOut_eq h1 h2]
    rfl

end Entries

/-- **The environment is a finite map.**  After any calls on the table of a new process the variables are those of the last
successful `sys_setenv` of each key, up to a later `sys_unsetenv`; a failing call changes nothing, a call touches no other
key, and `sys_getenv_at` lists every variable once. -/
theorem environ_finite_map (t : Table) (h : t.envc = 0) (cs : List Call) : FiniteMap (t.run cs).1 (recorded (t.run cs).2) := by
  have hnil : t.Shows fun _ => none := by
    refine ⟨[], ⟨h, zero_le _, fun i hi => ?_, fun x hx => ?_, nodup_nil⟩, fun k v => ?_⟩
    · exact absurd hi (not_lt_zero i)
    · exact absurd hx not_mem_nil
    · exact ⟨fun hc => absurd hc not_mem_nil, fun hc => by cases hc⟩
  exact hnil.run.finiteMap

def keyA : Key := ⟨[65], by decide, by decide⟩
def keyAB : Key := ⟨[65, 66], by decide, by decide⟩

/-- A key that starts with another one, and a value that is overwritten by a shorter one. -/
theorem environ_finite_map_keys : FiniteMap
    (Table.run ⟨fun _ => 7, 0⟩ [.setenv keyAB ⟨[120, 121], by decide⟩, .setenv keyA ⟨[122], by decide⟩, .setenv keyAB ⟨[48], by decide⟩]).1
    (recorded
      (Table.run ⟨fun _ => 7, 0⟩ [.setenv keyAB ⟨[120, 121], by decide⟩, .setenv keyA ⟨[122], by decide⟩, .setenv keyAB ⟨[48], by decide⟩]).2) :=
  environ_finite_map _ rfl _

end Environ
end Noxis
