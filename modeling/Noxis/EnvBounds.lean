import Noxis.Environ
/-!
# EnvBounds — where the environment queries read and store

`sys_getenv_at` narrows its 64-bit index to an `int` for the check and uses it at full width for the access, and both queries
narrow the buffer size.  `env_queries_iff` says for which arguments a query still stays in the table and in the buffer, in
every table the calls can build; keys are arbitrary strings here, an `=` in them included.
-/
namespace Noxis

open List Option Nat
namespace Environ

/-- The bytes that `while (s[len]) len++` reads from `a` on; after `n` of them it has left the table. -/
def lenReads (m : Nat → UInt8) : Nat → Nat → List Nat
  | 0, a => [a]
  | n + 1, a => a :: (if m a = 0 then [] else lenReads m n (a + 1))

def Table.getenvAtReads (t : Table) (idx : Nat) : List Nat :=
  if (t.envc : Int) ≤ intOf idx then [] else lenReads t.env (ENV_MAX * ENV_SLOT - ENV_SLOT * idx) (ENV_SLOT * idx)

/-- **The tables of a process**: what `sys_setenv` and `sys_unsetenv` make of the empty one, whatever its bytes. -/
inductive Table.Reached : Table → Prop
  | new (env : Nat → UInt8) : Table.Reached ⟨env, 0⟩
  | setenv {t : Table} {key val : List UInt8} (hk : 0 ∉ key) (hv : 0 ∉ val) : t.Reached → Table.Reached (t.sysSetenv key val).1
  | unsetenv {t : Table} {key : List UInt8} (hk : 0 ∉ key) : t.Reached → Table.Reached (t.sysUnsetenv key).1

structure Table.Ended (t : Table) : Prop where
  few : t.envc ≤ ENV_MAX
  nul : ∀ i < t.envc, ∃ j < ENV_SLOT, t.env (ENV_SLOT * i + j) = 0

variable {t : Table} {key : List UInt8} {i : Nat}

theorem Table.find_lt (h : t.find key = some i) : i < t.envc ∧ keyAt t.env key (ENV_SLOT * i) = true :=
  ⟨mem_range.mp (mem_of_find?_eq_some h), List.find?_some (p := fun i => keyAt t.env key (ENV_SLOT * i)) h⟩

theorem ended_place {env : Nat → UInt8} {val : List UInt8} {j : Nat} (hfit : key.length + 1 + val.length + 1 ≤ ENV_SLOT)
    (h : j ≠ i → ∃ k < ENV_SLOT, env (ENV_SLOT * j + k) = 0) :
    ∃ k < ENV_SLOT, place env (ENV_SLOT * i) (entry key val) (ENV_SLOT * j + k) = 0 := by
  have hlen := length_entry key val
  by_cases hij : j = i
  · subst hij
    refine ⟨key.length + val.length + 1, by omega, ?_⟩
    have hlies : Lies (place env (ENV_SLOT * j) (entry key val)) (ENV_SLOT * j) (entry key val) := Lies.place
    rw [hlies _ (by omega)]
    simp only [entry]
    rw [getElem_append_right (by omega), getElem_cons, dif_neg (by omega), getElem_append_right (by omega)]
    simp
  · obtain ⟨k, hk, h0⟩ := h hij
    refine ⟨k, hk, ?_⟩
    rw [place_outside, h0]
    unfold ENV_SLOT at *
    omega

theorem Table.Ended.setenv (h : t.Ended) (key val : List UInt8) : (t.sysSetenv key val).1.Ended := by
  unfold Table.sysSetenv
  by_cases hlong : ENV_SLOT < key.length + 1 + val.length + 1
  · rw [if_pos hlong]
    exact h
  rw [if_neg hlong]
  cases hf : t.find key with
  | some i => exact ⟨h.few, fun j hj => ended_place (by omega) (fun _ => h.nul j hj)⟩
  | none =>
    dsimp only
    by_cases hfull : ENV_MAX ≤ t.envc
    · rw [if_pos hfull]
      exact h
    · rw [if_neg hfull]
      refine ⟨by dsimp only; omega, fun j hj => ended_place (by omega) (fun hne => h.nul j ?_)⟩
      dsimp only at hj
      omega

theorem Table.Ended.unsetenv (h : t.Ended) (key : List UInt8) : (t.sysUnsetenv key).1.Ended := by
  unfold Table.sysUnsetenv
  cases hf : t.find key with
  | none => exact h
  | some i =>
    have hi := (Table.find_lt hf).1
    have hfew := h.few
    refine ⟨by dsimp only; omega, fun j hj => ?_⟩
    dsimp only at hj ⊢
    by_cases hji : j < i
    · obtain ⟨k, hk, h0⟩ := h.nul j (by omega)
      refine ⟨k, hk, ?_⟩
      rw [foldl_moveDown, if_neg (by unfold ENV_SLOT at *; omega), h0]
    obtain ⟨k, hk, h0⟩ := h.nul (j + 1) (by omega)
    refine ⟨k, hk, ?_⟩
    rw [foldl_moveDown, if_pos (by unfold ENV_SLOT at *; omega), add_right_comm]
    rw [mul_succ] at h0
    exact h0

theorem Table.Reached.ended (h : t.Reached) : t.Ended := by
  induction h with
  | new env => exact ⟨zero_le _, fun i hi => absurd hi (not_lt_zero i)⟩
  | setenv _ _ _ ih => exact ih.setenv _ _
  | unsetenv _ _ ih => exact ih.unsetenv _

/-! ## Reading -/

theorem cstr_of_nul {m : Nat → UInt8} : ∀ {j n a : Nat}, m (a + j) = 0 → j < n →
    ∃ s, cstr m n a = some s ∧ s.length ≤ j ∧ ∀ x ∈ lenReads m n a, a ≤ x ∧ x ≤ a + j
  | j, n + 1, a, h0, hj => by
    by_cases ha : m a = 0
    · refine ⟨[], by rw [cstr, if_pos ha], zero_le _, fun x hx => ?_⟩
      rw [lenReads, if_pos ha, mem_singleton] at hx
      omega
    cases j with
    | zero => exact absurd h0 ha
    | succ j =>
      obtain ⟨s, hs, hl, hr⟩ := cstr_of_nul (m := m) (j := j) (n := n) (a := a + 1) (by rw [← h0]; congr 1; omega) (by omega)
      refine ⟨m a :: s, by rw [cstr, if_neg ha, hs]; rfl, by rw [length_cons]; omega, fun x hx => ?_⟩
      rw [lenReads, if_neg ha, mem_cons] at hx
      rcases hx with rfl | hx
      · omega
      · have := hr x hx
        omega

theorem Table.Ended.string (h : t.Ended) (hi : i < t.envc) : ∃ s, t.string (ENV_SLOT * i) = some s ∧
      ∀ x ∈ lenReads t.env (ENV_MAX * ENV_SLOT - ENV_SLOT * i) (ENV_SLOT * i), x < ENV_SLOT * t.envc := by
  obtain ⟨j, hj, h0⟩ := h.nul i hi
  have hfew := h.few
  obtain ⟨s, hs, -, hr⟩ := cstr_of_nul (n := ENV_MAX * ENV_SLOT - ENV_SLOT * i) h0 (by unfold ENV_SLOT ENV_MAX at *; omega)
  refine ⟨s, hs, fun x hx => ?_⟩
  have := hr x hx
  unfold ENV_SLOT at *
  omega

theorem keyAt_ne_zero {m : Nat → UInt8} : ∀ {key : List UInt8} {a j : Nat}, keyAt m key a = true → 0 ∉ key →
    m (a + j) = 0 → key.length < j
  | [], a, j, h, _, h0 => by
    rw [keyAt, beq_iff_eq] at h
    rcases Nat.eq_zero_or_pos j with rfl | hj
    · rw [add_zero, h] at h0
      cases h0
    · exact hj
  | c :: key, a, j, h, hk, h0 => by
    rw [keyAt, Bool.and_eq_true, beq_iff_eq] at h
    rw [mem_cons, not_or] at hk
    cases j with
    | zero => exact absurd (h.1.symm.trans h0) (Ne.symm hk.1)
    | succ j =>
      have := keyAt_ne_zero (j := j) h.2 hk.2 (by rw [← h0]; congr 1; omega)
      rw [length_cons]
      omega

theorem Table.Ended.value (h : t.Ended) (hk : 0 ∉ key) (hf : t.find key = some i) :
    ∃ s, t.string (ENV_SLOT * i + key.length + 1) = some s := by
  obtain ⟨hi, hkey⟩ := Table.find_lt hf
  obtain ⟨j, hj, h0⟩ := h.nul i hi
  have hlt := keyAt_ne_zero hkey hk h0
  have hfew := h.few
  obtain ⟨s, hs, -, -⟩ := cstr_of_nul (m := t.env) (j := j - (key.length + 1)) (a := ENV_SLOT * i + key.length + 1)
    (n := ENV_MAX * ENV_SLOT - (ENV_SLOT * i + key.length + 1)) (by rw [← h0]; congr 1; omega)
    (by unfold ENV_SLOT ENV_MAX at *; omega)
  exact ⟨s, hs⟩

/-! ## Storing -/

/-- **A reply stays in the caller's buffer** of `n` bytes and ends what it stores there with a NUL. -/
def Within (buf : Option Nat) (r : Reply) : Prop :=
  (∀ x ∈ r.stores, ∃ n, buf = some n ∧ 0 ≤ x.1 ∧ x.1 < (n : Int)) ∧
    ∀ n, buf = some n → 0 < n → r.ret ≠ -1 → ∃ k, (k, 0) ∈ r.stores ∧ ∀ x ∈ r.stores, x.1 ≤ k

def SizeOk (buf : Option Nat) : Prop := ∀ n, buf = some n → 0 < n → 1 ≤ intOf n

theorem intOf_le {n : Nat} : intOf n ≤ n := by
  unfold intOf
  have := mod_le n (2 ^ 32)
  have := mod_lt n (show 0 < 2 ^ 32 by omega)
  split <;> omega

theorem mem_stored {bs : List UInt8} {x : Int × UInt8} (h : x ∈ stored bs) : 0 ≤ x.1 ∧ x.1 < bs.length := by
  obtain ⟨y, hy, rfl⟩ := mem_map.1 h
  have := mem_zipIdx hy
  omega

theorem copyOut_within (buf : Option Nat) (s : List UInt8) : Within buf ⟨s.length, copyOut buf s⟩ ↔ SizeOk buf := by
  constructor
  · rintro ⟨hin, -⟩ n rfl hn
    by_contra hlt
    obtain ⟨m, -, h0, -⟩ := hin (intOf n - 1, 0) (by
      unfold copyOut
      dsimp only
      rw [if_pos hn, if_neg (by omega)]
      exact mem_append_right _ mem_cons_self)
    dsimp only at h0
    omega
  · intro hok
    cases buf with
    | none => exact ⟨fun x hx => absurd hx not_mem_nil, fun n hn => by cases hn⟩
    | some n =>
      unfold copyOut
      dsimp only
      by_cases hn : 0 < n
      · rw [if_pos hn]
        have h1 := hok n rfl hn
        have h2 := intOf_le (n := n)
        -- the index of the NUL, with what is stored before it
        obtain ⟨cp, hcp, hlt⟩ : ∃ cp : Nat, (if (s.length : Int) < intOf n - 1 then (s.length : Int) else intOf n - 1) = cp ∧
            cp < n := by
          split
          · exact ⟨s.length, rfl, by omega⟩
          · exact ⟨(intOf n - 1).toNat, by omega, by omega⟩
        rw [hcp, Int.toNat_natCast]
        have hmem : ∀ x ∈ stored (s.take cp) ++ [((cp : Int), (0 : UInt8))], 0 ≤ x.1 ∧ x.1 ≤ (cp : Int) := by
          intro x hx
          rcases mem_append.1 hx with hx | hx
          · have := mem_stored hx
            have := length_take_le cp s
            omega
          · rw [mem_singleton.1 hx]
            exact ⟨Int.natCast_nonneg cp, Int.le_refl _⟩
        refine ⟨fun x hx => ⟨n, rfl, (hmem x hx).1, ?_⟩, fun m hm _ _ => ⟨cp, by simp, fun x hx => (hmem x hx).2⟩⟩
        have := (hmem x hx).2
        omega
      · rw [if_neg hn]
        refine ⟨fun x hx => absurd hx not_mem_nil, fun m hm hpos => ?_⟩
        rw [← some.inj hm] at hpos
        exact absurd hpos hn

theorem failed_within (buf : Option Nat) : Within buf ⟨-1, []⟩ :=
  ⟨fun _ hx => absurd hx not_mem_nil, fun _ _ _ h => absurd rfl h⟩

/-! ## The queries -/

/-- **The two queries are in bounds** for an index, a key and a buffer, with the index compared as the number it is. -/
structure InBounds (t : Table) (key : List UInt8) (idx : Nat) (buf : Option Nat) : Prop where
  getenvAt : ∃ r, t.sysGetenvAt idx buf = some r ∧ (r.ret = -1 ↔ t.envc ≤ idx) ∧ Within buf r
  reads : ∀ x ∈ t.getenvAtReads idx, x < ENV_SLOT * t.envc
  getenv : ∃ r, t.sysGetenv key buf = some r ∧ Within buf r

/-- **Environment queries are in bounds exactly when the narrowed index is on the same side of `envc` as the index**, and the
narrowed size of the buffer, where something is stored, stays positive. -/
theorem env_queries_iff (t : Table) (h : t.Reached) (key : List UInt8) (hk : 0 ∉ key) (idx : Nat) (buf : Option Nat) :
    InBounds t key idx buf ↔
      (t.envc ≤ idx ↔ (t.envc : Int) ≤ intOf idx) ∧ ((idx < t.envc ∨ t.find key ≠ none) → SizeOk buf) := by
  have he := h.ended
  have hat : t.envc ≤ idx → (t.envc : Int) ≤ intOf idx → t.sysGetenvAt idx buf = some ⟨-1, []⟩ :=
    fun _ h2 => by rw [Table.sysGetenvAt, if_pos h2]
  constructor
  · rintro ⟨⟨r, hr, hret, hin⟩, -, ⟨q, hq, hqin⟩⟩
    have hside : t.envc ≤ idx ↔ (t.envc : Int) ≤ intOf idx := by
      have hle := intOf_le (n := idx)
      refine ⟨fun hge => ?_, fun hge => by omega⟩
      by_contra hlt
      rw [Table.sysGetenvAt, if_neg hlt, map_eq_some_iff] at hr
      obtain ⟨s, -, rfl⟩ := hr
      have := hret.2 hge
      dsimp only at this
      omega
    refine ⟨hside, ?_⟩
    rintro (hlt | hfound)
    · obtain ⟨s, hs, -⟩ := he.string hlt
      rw [Table.sysGetenvAt, if_neg (fun hx => absurd (hside.2 hx) (by omega)), hs] at hr
      rw [← some.inj hr] at hin
      exact (copyOut_within buf s).1 hin
    · obtain ⟨i, hf⟩ := ne_none_iff_exists'.1 hfound
      obtain ⟨s, hs⟩ := he.value hk hf
      rw [Table.sysGetenv, hf] at hq
      dsimp only at hq
      rw [hs] at hq
      rw [← some.inj hq] at hqin
      exact (copyOut_within buf s).1 hqin
  · rintro ⟨hside, hsize⟩
    refine ⟨?_, ?_, ?_⟩
    · by_cases hge : t.envc ≤ idx
      · exact ⟨_, hat hge (hside.1 hge), ⟨fun _ => hge, fun _ => rfl⟩, failed_within buf⟩
      · obtain ⟨s, hs, -⟩ := he.string (Nat.lt_of_not_le hge)
        refine ⟨⟨s.length, copyOut buf s⟩, ?_, ⟨fun hx => ?_, fun hx => absurd hx hge⟩,
          (copyOut_within buf s).2 (hsize (.inl (Nat.lt_of_not_le hge)))⟩
        · rw [Table.sysGetenvAt, if_neg (fun hx => hge (hside.2 hx)), hs]
          rfl
        · dsimp only at hx
          omega
    · intro x hx
      unfold Table.getenvAtReads at hx
      split at hx
      · exact absurd hx not_mem_nil
      · rename_i hlt
        obtain ⟨s, -, hr⟩ := he.string (Nat.lt_of_not_le (fun hge => hlt (hside.1 hge)))
        exact hr x hx
    · unfold Table.sysGetenv
      cases hf : t.find key with
      | none => exact ⟨_, rfl, failed_within buf⟩
      | some i =>
        obtain ⟨s, hs⟩ := he.value hk hf
        dsimp only
        rw [hs]
        exact ⟨_, rfl, (copyOut_within buf s).2 (hsize (.inr (by rw [hf]; exact some_ne_none i)))⟩

def oneVariable : Table := ((⟨fun _ => 0, 0⟩ : Table).sysSetenv [65] [122]).1

theorem oneVariable_reached : oneVariable.Reached := .setenv (by decide) (by decide) (.new _)

theorem env_queries_iff_one : InBounds oneVariable [65] 0 (some 16) ↔
    (oneVariable.envc ≤ 0 ↔ (oneVariable.envc : Int) ≤ intOf 0) ∧
      ((0 < oneVariable.envc ∨ oneVariable.find [65] ≠ none) → SizeOk (some 16)) :=
  env_queries_iff oneVariable oneVariable_reached [65] (by decide) 0 (some 16)

/-- An index of 2³¹ passes the check, and the length loop reads far behind the table; a buffer of 2³² bytes gets its NUL in
front of it. -/
theorem env_queries_out_of_bounds :
    ¬ InBounds oneVariable [65] (2 ^ 31) (some 16) ∧ oneVariable.getenvAtReads (2 ^ 31) = [160 * 2 ^ 31] ∧
      ¬ InBounds oneVariable [65] 0 (some (2 ^ 32)) ∧ oneVariable.sysGetenv [65] (some (2 ^ 32)) = some ⟨1, [(-1, 0)]⟩ := by
  have hget : oneVariable.sysGetenv [65] (some (2 ^ 32)) = some ⟨1, [(-1, 0)]⟩ := by decide
  have hreads : oneVariable.getenvAtReads (2 ^ 31) = [160 * 2 ^ 31] := by decide
  refine ⟨fun h => ?_, hreads, fun h => ?_, hget⟩
  · have hx := h.reads (160 * 2 ^ 31) (by rw [hreads]; exact mem_cons_self)
    exact absurd hx (by decide)
  · obtain ⟨r, hr, hin, -⟩ := h.getenv
    rw [hget] at hr
    rw [← some.inj hr] at hin
    obtain ⟨n, -, h0, -⟩ := hin (-1, 0) mem_cons_self
    exact absurd h0 (by decide)

end Environ
end Noxis
