import Noxis.Run
/-!
# Block — the generic block layer: device registry, request pool and elevator queue

`blkRw` takes a request slot of the shared pool, files it in the device's queue by ascending sector, drains the queue through
the driver's `transfer` and gives the slot back.  The driver is not part of the layer: `drv` answers each transfer from the
transfers made so far.  The sector arithmetic is the 32-bit one of the source.
-/
namespace Noxis

open Option Function
namespace Blk

inductive OsStatus where
  | ok | errNull | errOom | errInvalid | errIo | errNotFound | errPerm | errBusy | errRange | errNosys
  deriving DecidableEq, Repr

def BLK_MAX_DEVICES : Nat := 4
abbrev BLK_NR_REQUEST : Nat := 16

abbrev Slot := Fin BLK_NR_REQUEST

/-- A registered driver: its sector count, 0 when unknown, and whether it has a `transfer` entry. -/
structure BlockDevice where
  sectors : UInt32
  transfer : Bool
  deriving DecidableEq, Repr

structure BlkRequest where
  dev : Nat
  write : Bool
  lba : UInt32
  count : UInt32
  buf : Nat
  status : OsStatus
  next : Option Slot
  inUse : Bool
  deriving DecidableEq, Repr

structure Transfer where
  dev : Nat
  lba : UInt32
  count : UInt32
  buf : Nat
  write : Bool
  deriving DecidableEq, Repr

structure Layer where
  devices : Nat → Option BlockDevice
  devCount : Nat
  pool : Slot → BlkRequest
  queue : Nat → Option Slot
  served : Nat
  /-- The transfers made, the latest last. -/
  calls : List Transfer

/-- What the driver answers to a transfer, given the transfers before it. -/
abbrev Driver := List Transfer → Transfer → OsStatus

def setRequest (s : Layer) (r : Slot) (f : BlkRequest → BlkRequest) : Layer :=
  { s with pool := update s.pool r (f (s.pool r)) }

def blkInit (s : Layer) : Layer :=
  { s with
    devCount := 0
    served := 0
    devices := fun _ => none
    queue := fun _ => none
    pool := fun r => { s.pool r with inUse := false, next := none } }

def blkRegister (s : Layer) (dev : Option BlockDevice) : Layer × Int :=
  match dev with
  | none => (s, -1)
  | some d =>
    if d.transfer = false then (s, -1)
    else if BLK_MAX_DEVICES ≤ s.devCount then (s, -1)
    else ({ s with devCount := s.devCount + 1, devices := update s.devices s.devCount (some d) }, s.devCount)

def blkGet (s : Layer) (devid : Int) : Option BlockDevice :=
  if devid < 0 ∨ (s.devCount : Int) ≤ devid then none else s.devices devid.toNat

def requestAlloc (s : Layer) : Option (Layer × Slot) :=
  ((List.finRange BLK_NR_REQUEST).find? (fun r => !(s.pool r).inUse)).map
    (fun r => (setRequest s r (fun q => { q with inUse := true, next := none }), r))

def requestFree (s : Layer) (r : Slot) : Layer := setRequest s r (fun q => { q with inUse := false, next := none })

/-- `while (*pp && (*pp)->lba <= req->lba) pp = &(*pp)->next;` from the link `loc`, which holds the pointer that follows;
`none` stands for the queue head. -/
def elevatorLoc (s : Layer) (lba : UInt32) : Nat → Option Slot → Option Slot → Option (Option Slot × Option Slot)
  | _, loc, none => some (loc, none)
  | 0, _, some _ => none
  | fuel + 1, loc, some r =>
    if (s.pool r).lba ≤ lba then elevatorLoc s lba fuel (some r) (s.pool r).next else some (loc, some r)

def elevatorInsert (s : Layer) (devid : Nat) (req : Slot) : Option Layer :=
  match elevatorLoc s (s.pool req).lba BLK_NR_REQUEST none (s.queue devid) with
  | none => none
  | some (loc, p) =>
    let s := setRequest s req (fun q => { q with next := p })
    match loc with
    | none => some { s with queue := update s.queue devid (some req) }
    | some r => some (setRequest s r (fun q => { q with next := some req }))

def serve (drv : Driver) (s : Layer) (devid : Nat) (req : Slot) : Layer :=
  let q := s.pool req
  let t : Transfer := ⟨devid, q.lba, q.count, q.buf, q.write⟩
  { s with
    queue := update s.queue devid q.next
    pool := update s.pool req { q with status := drv s.calls t }
    served := (s.served + 1) % 2 ^ 32
    calls := s.calls ++ [t] }

def runQueue (drv : Driver) (devid : Nat) : Nat → Layer → Option Layer
  | 0, s =>
    match s.queue devid with
    | none => some s
    | some _ => none
  | fuel + 1, s =>
    match s.queue devid with
    | none => some s
    | some req => runQueue drv devid fuel (serve drv s devid req)

/-- `blk_rw`; nothing when one of its loops does not end. -/
def blkRw (drv : Driver) (s : Layer) (devid : Int) (lba count : UInt32) (buf : Nat) (write : Bool) :
    Option (Layer × OsStatus) :=
  if devid < 0 ∨ (s.devCount : Int) ≤ devid then some (s, .errInvalid)
  else if buf = 0 ∨ count = 0 then some (s, .errInvalid)
  else
    match s.devices devid.toNat with
    | none => some (s, .errNotFound)
    | some dev =>
      if dev.transfer = false then some (s, .errNotFound)
      else if dev.sectors ≠ 0 ∧ lba + count > dev.sectors then some (s, .errRange)
      else
        match requestAlloc s with
        | none => some (s, .errBusy)
        | some (s, req) =>
          let s := setRequest s req (fun q =>
            { q with dev := devid.toNat, write := write, lba := lba, count := count, buf := buf, status := .errIo })
          match elevatorInsert s devid.toNat req with
          | none => none
          | some s =>
            match runQueue drv devid.toNat BLK_NR_REQUEST s with
            | none => none
            | some s => some (requestFree s req, (s.pool req).status)

/-! ## A request on an idle layer -/

/-- **Nothing is in flight**: every request slot is free and every queue is empty. -/
structure Idle (s : Layer) : Prop where
  free : ∀ r, (s.pool r).inUse = false
  queue : ∀ d, s.queue d = none

theorem blkInit_idle (s : Layer) : Idle (blkInit s) := ⟨fun _ => rfl, fun _ => rfl⟩

def Registry (s : Layer) : Prop := ∀ d, d < s.devCount → ∃ dev, s.devices d = some dev ∧ dev.transfer = true

theorem blkRegister_cases (s : Layer) (dev : Option BlockDevice) : (blkRegister s dev).1 = s ∨
    ∃ d, dev = some d ∧ d.transfer = true ∧
      (blkRegister s dev).1 = { s with devCount := s.devCount + 1, devices := update s.devices s.devCount (some d) } := by
  unfold blkRegister
  cases dev with
  | none => exact .inl rfl
  | some d =>
    simp only
    by_cases ht : d.transfer = false
    · rw [if_pos ht]; exact .inl rfl
    · rw [if_neg ht]
      by_cases hc : BLK_MAX_DEVICES ≤ s.devCount
      · rw [if_pos hc]; exact .inl rfl
      · rw [if_neg hc]; exact .inr ⟨d, rfl, by simpa using ht, rfl⟩

variable {s : Layer}

theorem requestAlloc_idle (h : Idle s) :
    requestAlloc s = some (setRequest s 0 (fun q => { q with inUse := true, next := none }), 0) := by
  have hf : (List.finRange BLK_NR_REQUEST).find? (fun r => !(s.pool r).inUse) = some 0 := by
    rw [List.finRange_succ, List.find?_cons, h.free 0]
    rfl
  rw [requestAlloc, hf]
  rfl

variable {devid buf : Nat}

theorem elevatorInsert_empty (req : Slot) (h : s.queue devid = none) : elevatorInsert s devid req =
      some { setRequest s req (fun q => { q with next := none }) with queue := update s.queue devid (some req) } := by
  unfold elevatorInsert
  rw [h]
  rfl

theorem runQueue_empty (drv : Driver) {s : Layer} {devid : Nat} (h : s.queue devid = none) :
    ∀ fuel, runQueue drv devid fuel s = some s
  | 0 => by rw [runQueue, h]
  | fuel + 1 => by rw [runQueue, h]

theorem runQueue_single (drv : Driver) {fuel : Nat} {req : Slot} (h : s.queue devid = some req)
    (hn : (s.pool req).next = none) : runQueue drv devid (fuel + 1) s = some (serve drv s devid req) := by
  have hq : (serve drv s devid req).queue devid = none := by simp only [serve, update_self, hn]
  rw [runQueue, h]
  exact runQueue_empty drv hq fuel

/-- What `blk_rw` lets through, in its own 32-bit arithmetic. -/
def Accepted (s : Layer) (devid : Int) (lba count : UInt32) (buf : Nat) : Prop :=
  ∃ dev, blkGet s devid = some dev ∧ dev.transfer = true ∧ buf ≠ 0 ∧ count ≠ 0 ∧
    (dev.sectors = 0 ∨ lba + count ≤ dev.sectors)

variable {lba count : UInt32}

/-- **A refused request** is answered by an error and reaches no driver. -/
theorem blkRw_refused (drv : Driver) {devid : Int} (write : Bool) (h : ¬ Accepted s devid lba count buf) :
    ∃ st, st ≠ .ok ∧ blkRw drv s devid lba count buf write = some (s, st) := by
  unfold blkRw
  by_cases hid : devid < 0 ∨ (s.devCount : Int) ≤ devid
  · exact ⟨.errInvalid, nofun, by rw [if_pos hid]⟩
  by_cases hbc : buf = 0 ∨ count = 0
  · exact ⟨.errInvalid, nofun, by rw [if_neg hid, if_pos hbc]⟩
  rw [if_neg hid, if_neg hbc]
  cases hd : s.devices devid.toNat with
  | none => exact ⟨.errNotFound, nofun, rfl⟩
  | some dev =>
    by_cases ht : dev.transfer = false
    · exact ⟨.errNotFound, nofun, by simp only; rw [if_pos ht]⟩
    by_cases hs : dev.sectors ≠ 0 ∧ lba + count > dev.sectors
    · exact ⟨.errRange, nofun, by simp only; rw [if_neg ht, if_pos hs]⟩
    refine absurd ⟨dev, by rw [blkGet, if_neg hid, hd], by simpa using ht, fun hx => hbc (.inl hx),
      fun hx => hbc (.inr hx), ?_⟩ h
    by_cases h0 : dev.sectors = 0
    · exact .inl h0
    · exact .inr (UInt32.not_lt.1 (fun hlt => hs ⟨h0, hlt⟩))

/-- **An accepted request** on an idle layer is one transfer of exactly its sectors, and leaves the layer idle. -/
theorem blkRw_accepted (drv : Driver) {devid : Int} (write : Bool) (hi : Idle s)
    (h : Accepted s devid lba count buf) : ∃ s', Idle s' ∧ s'.devices = s.devices ∧ s'.devCount = s.devCount ∧
      s'.calls = s.calls ++ [⟨devid.toNat, lba, count, buf, write⟩] ∧
      blkRw drv s devid lba count buf write = some (s', drv s.calls ⟨devid.toNat, lba, count, buf, write⟩) := by
  obtain ⟨dev, hg, ht, hb, hc, hs⟩ := h
  have hid : ¬ (devid < 0 ∨ (s.devCount : Int) ≤ devid) := by
    intro hx
    rw [blkGet, if_pos hx] at hg
    cases hg
  rw [blkGet, if_neg hid] at hg
  have hrange : ¬ (dev.sectors ≠ 0 ∧ lba + count > dev.sectors) := by
    rintro ⟨h0, hlt⟩
    exact hs.elim h0 (fun hle => UInt32.not_lt.2 hle hlt)
  rw [blkRw, if_neg hid, if_neg (by rintro (hx | hx); exacts [hb hx, hc hx]), hg]
  simp only
  rw [if_neg (by rw [ht]; decide), if_neg hrange, requestAlloc_idle hi]
  simp only
  rw [elevatorInsert_empty _ (by exact hi.queue _)]
  simp only
  rw [runQueue_single drv (update_self ..) (by simp only [setRequest, update_self])]
  refine ⟨_, ⟨fun r => ?_, fun d => ?_⟩, ?_, ?_, ?_, rfl⟩
  · by_cases hr : r = 0
    · rw [hr]; simp only [requestFree, setRequest, serve, update_self]
    · simp only [requestFree, setRequest, serve, update_of_ne hr]
      exact hi.free r
  · by_cases hd : d = devid.toNat
    · rw [hd]; simp only [requestFree, setRequest, serve, update_self]
    · simp only [requestFree, setRequest, serve, update_of_ne hd]
      exact hi.queue d
  all_goals simp only [requestFree, setRequest, serve, update_self]

theorem blkRw_idle (drv : Driver) (devid : Int) (lba count : UInt32) (buf : Nat) (write : Bool) (hi : Idle s) :
    ∃ s' st, blkRw drv s devid lba count buf write = some (s', st) ∧ Idle s' ∧ s'.devices = s.devices ∧
      s'.devCount = s.devCount := by
  by_cases h : Accepted s devid lba count buf
  · obtain ⟨s', h1, h2, h3, _, h4⟩ := blkRw_accepted drv write hi h
    exact ⟨s', _, h4, h1, h2, h3⟩
  · obtain ⟨st, _, h1⟩ := blkRw_refused drv write h
    exact ⟨s, st, h1, hi, rfl, rfl⟩

/-! ## Runs of the layer -/

inductive Op where
  | register (dev : Option BlockDevice)
  | rw (devid : Int) (lba count : UInt32) (buf : Nat) (write : Bool)

inductive Answer where
  | id (n : Int)
  | status (st : OsStatus)
  | hangs

def step (drv : Driver) (s : Layer) : Op → Layer × Answer
  | .register dev => ((blkRegister s dev).1, .id (blkRegister s dev).2)
  | .rw devid lba count buf write =>
    match blkRw drv s devid lba count buf write with
    | some (s', st) => (s', .status st)
    | none => (s, .hangs)

theorem step_keeps (drv : Driver) (op : Op) (h : Idle s ∧ Registry s) :
    Idle (step drv s op).1 ∧ Registry (step drv s op).1 := by
  obtain ⟨hi, hr⟩ := h
  cases op with
  | register dev =>
    rcases blkRegister_cases s dev with hs | ⟨d, -, ht, hs⟩
    · rw [step, hs]
      exact ⟨hi, hr⟩
    rw [step, hs]
    refine ⟨⟨hi.free, hi.queue⟩, fun n hn => ?_⟩
    by_cases hnd : n = s.devCount
    · exact ⟨d, by subst hnd; exact update_self .., ht⟩
    · obtain ⟨dev', h1, h2⟩ := hr n (by simp only at hn; omega)
      exact ⟨dev', (update_of_ne hnd _ _).trans h1, h2⟩
  | rw devid lba count buf write =>
    obtain ⟨s', st, h1, h2, h3, h4⟩ := blkRw_idle drv devid lba count buf write hi
    rw [step, h1]
    refine ⟨h2, fun n hn => ?_⟩
    rw [h3]
    exact hr n (by rw [← h4]; exact hn)

theorem run_keeps (drv : Driver) (s0 : Layer) (ops : List Op) :
    Idle (run (step drv) (blkInit s0) ops).1 ∧ Registry (run (step drv) (blkInit s0) ops).1 :=
  run_inv (P := fun s => Idle s ∧ Registry s) (C := fun _ _ => True) (fun _ op h _ => step_keeps drv op h) ops _
    ⟨blkInit_idle s0, fun _ hd => absurd hd (Nat.not_lt_zero _)⟩ (fun _ _ _ _ => trivial)

/-- **The request stays on the device `dev`**, with the sector arithmetic done on integers: the driver is called only when the
sectors asked for exist, otherwise an error is returned without a call; and the layer is idle again. -/
def OnDevice (drv : Driver) (s : Layer) (dev : BlockDevice) (devid : Int) (lba count : UInt32) (buf : Nat) (write : Bool) :
    Prop :=
  ∃ s' st, blkRw drv s devid lba count buf write = some (s', st) ∧
    (s'.calls ≠ s.calls → lba.toNat + count.toNat ≤ dev.sectors.toNat) ∧
    (dev.sectors.toNat < lba.toNat + count.toNat → s'.calls = s.calls ∧ st ≠ .ok) ∧ Idle s'

/-- **Block requests stay on the device exactly when the 32-bit sum of their sectors does not wrap**, or is still too large, or
the request is refused for its buffer or count.  In whatever state registrations and requests have brought the layer to. -/
theorem blk_rw_on_device_iff (drv : Driver) (s0 : Layer) (ops : List Op) (dev : BlockDevice) (devid : Int)
    (lba count : UInt32) (buf : Nat) (write : Bool) (hdev : blkGet (run (step drv) (blkInit s0) ops).1 devid = some dev)
    (hknown : dev.sectors ≠ 0) : OnDevice drv (run (step drv) (blkInit s0) ops).1 dev devid lba count buf write ↔
      (lba.toNat + count.toNat < 2 ^ 32 ∨ dev.sectors < lba + count ∨ buf = 0 ∨ count = 0) := by
  obtain ⟨hi, hr⟩ := run_keeps drv s0 ops
  generalize (run (step drv) (blkInit s0) ops).1 = s at *
  have hsum : (lba + count).toNat = (lba.toNat + count.toNat) % 2 ^ 32 := UInt32.toNat_add lba count
  have ht : dev.transfer = true := by
    unfold blkGet at hdev
    split at hdev
    · cases hdev
    rename_i hid
    obtain ⟨dev', h1, h2⟩ := hr devid.toNat (by omega)
    rw [hdev] at h1
    rw [some.inj h1]
    exact h2
  by_cases hacc : Accepted s devid lba count buf
  · obtain ⟨s', h1, -, -, h2, h3⟩ := blkRw_accepted drv write hi hacc
    obtain ⟨dev', hg, -, hb, hc, hs⟩ := hacc
    obtain rfl : dev' = dev := some.inj (hg.symm.trans hdev)
    have hle := UInt32.le_iff_toNat_le.1 (hs.resolve_left hknown)
    have hcalls : s'.calls ≠ s.calls := by rw [h2]; simp
    constructor
    · rintro ⟨t, st, hrw, honly, -, -⟩
      obtain rfl : s' = t := by
        rw [h3] at hrw
        exact (Prod.ext_iff.1 (some.inj hrw)).1
      have := honly hcalls
      have := dev'.sectors.toNat_lt
      omega
    · rintro (hlt | hlt | hx | hx)
      · have hfit : lba.toNat + count.toNat ≤ dev'.sectors.toNat := by
          rw [Nat.mod_eq_of_lt hlt] at hsum
          omega
        exact ⟨s', _, h3, fun _ => hfit, fun h => absurd h (by omega), h1⟩
      · rw [UInt32.lt_iff_toNat_lt] at hlt
        omega
      · exact absurd hx hb
      · exact absurd hx hc
  · obtain ⟨st, hst, h1⟩ := blkRw_refused drv write hacc
    refine ⟨fun _ => ?_, fun _ => ⟨s, st, h1, fun h => absurd rfl h, fun _ => ⟨rfl, hst⟩, hi⟩⟩
    by_cases hb : buf = 0
    · exact .inr (.inr (.inl hb))
    by_cases hc : count = 0
    · exact .inr (.inr (.inr hc))
    · exact .inr (.inl (UInt32.not_le.1 (fun hle => hacc ⟨dev, hdev, ht, hb, hc, .inr hle⟩)))

/-- **A request is one transfer or an error**, in whatever state registrations and requests have brought the layer to: no loop of
it hangs, the driver is asked for exactly what the caller asked for, at most once, and its answer is the caller's. -/
theorem blk_rw_one_transfer (drv : Driver) (s0 : Layer) (ops : List Op) (devid : Int) (lba count : UInt32) (buf : Nat)
    (write : Bool) : let s := (run (step drv) (blkInit s0) ops).1
    ∃ s' st, blkRw drv s devid lba count buf write = some (s', st) ∧ (s' = s ∧ st ≠ .ok ∨
      s'.calls = s.calls ++ [⟨devid.toNat, lba, count, buf, write⟩] ∧ st = drv s.calls ⟨devid.toNat, lba, count, buf, write⟩) := by
  intro s
  obtain ⟨hi, -⟩ := run_keeps drv s0 ops
  by_cases h : Accepted s devid lba count buf
  · obtain ⟨s', -, -, -, h1, h2⟩ := blkRw_accepted drv write hi h
    exact ⟨s', _, h2, .inr ⟨h1, rfl⟩⟩
  · obtain ⟨st, h1, h2⟩ := blkRw_refused drv write h
    exact ⟨s, st, h2, .inl ⟨rfl, h1⟩⟩

def bootLayer : Layer := ⟨fun _ => none, 0, fun _ => ⟨0, false, 0, 0, 0, .ok, none, false⟩, fun _ => none, 0, []⟩

def oneDisk : List Op := [.register (some ⟨1000, true⟩)]

theorem blk_rw_on_device_iff_disk :
    OnDevice (fun _ _ => .ok) (run (step (fun _ _ => .ok)) (blkInit bootLayer) oneDisk).1 ⟨1000, true⟩ 0 992 8 4096 false ↔
      ((992 : UInt32).toNat + (8 : UInt32).toNat < 2 ^ 32 ∨ (1000 : UInt32) < 992 + 8 ∨ 4096 = 0 ∨ (8 : UInt32) = 0) :=
  blk_rw_on_device_iff (fun _ _ => .ok) bootLayer oneDisk ⟨1000, true⟩ 0 992 8 4096 false (by decide) (by decide)

/-- Sectors from `0xFFFFFFFF` on: the sum wraps to 0, the check passes and the driver is called. -/
theorem blk_rw_wraps :
    ¬ OnDevice (fun _ _ => .ok) (run (step (fun _ _ => .ok)) (blkInit bootLayer) oneDisk).1 ⟨1000, true⟩ 0 0xFFFFFFFF 1 4096
      false := by
  rintro ⟨s', st, h, honly, -⟩
  have hcalls : (blkRw (fun _ _ => .ok) (run (step (fun _ _ => .ok)) (blkInit bootLayer) oneDisk).1 0 0xFFFFFFFF 1 4096
      false).map (fun r => r.1.calls.length) = some 1 := by decide
  rw [h] at hcalls
  have hlen : s'.calls.length = 1 := some.inj hcalls
  have hne : s'.calls ≠ (run (step (fun _ _ => .ok)) (blkInit bootLayer) oneDisk).1.calls := by
    intro hx
    rw [hx] at hlen
    exact absurd hlen (by decide)
  exact absurd (honly hne) (by decide)

end Blk
end Noxis
