import Noxis.Table
/-!
# Coherent — the cached file and the file on disk

An entry of the file table is loaded from disk, and every write stores all of it, so the two agree (`Fs.Agrees`) as long as a
file has one entry.  `O_TRUNC` sets the size of the entry alone.  Without it, and without writes to procfs files, which go
to the root directory, the entries agree with the disk in every state of a run (`cache_agrees`).
-/
namespace Noxis

open List Option Function

theorem SameFile.refl (v : Vol) (i : Nat) : SameFile v v i := ⟨rfl, rfl, fun _ _ => rfl⟩

theorem Vol.Kempt.creatAt_new {v w : Vol} {e : Heap} {parent ino : Nat} {nm : Name} (h : v.Kempt) (he : e.Ok) (hp : v.IsDirAt parent)
    (hr : v.creatAt e parent nm = (w, some ino)) : w.IsFileAt ino ∧ (w.inode ino).size = 0 := by
  rcases creatAt_cases (e := e) h.filed.sound parent nm with ⟨-, hr'⟩ | ⟨v1, i, ht, hr'⟩
  · rw [hr] at hr'
    cases hr'
  have hs := ht.sprung h.filed.sound
  have hi : v1.Allocated i := (hs.allocated i).2 (.inr rfl)
  have hadd := (h.took ht).filed.addSpec he (hs.keeps_dir hp) hi nm (by decide : ftFile < 256)
  rw [hr] at hr'
  obtain ⟨-, rfl⟩ := enteredAs_some (congrArg Prod.snd hr').symm
  have hw : w = (v1.dirAddEntry e parent nm ino ftFile).1 := (congrArg Prod.fst hr').trans (enteredAs_vol _ _)
  have hfile : v1.IsFileAt ino := ⟨hi, by unfold Inode.isFile; rw [ht.mode_eq (by decide)]; decide⟩
  have hsame := hadd.same hi ((h.took ht).ne_dir hfile (hs.keeps_dir hp))
  rw [hw, Vol.IsFileAt, hsame.inode]
  exact ⟨⟨(hadd.allocated ino).2 hi, hfile.2⟩, ht.size_eq⟩

namespace Fs

variable {fs fs1 : Fs} {e : Heap} {ino k : Nat} {f : VfsFile} {nm : List UInt8}

structure Agrees (fs : Fs) (k : Nat) : Prop where
  size : (fs.vol.inode (fs.files k).inode).size = (fs.files k).size
  bytes : ∀ x < (fs.files k).size, fs.vol.byteAt (fs.files k).inode x = fs.byte k x

def Single (fs : Fs) (k : Nat) : Prop := ∀ j < fs.count, (fs.files j).inode = (fs.files k).inode → j = k

structure Coherent (fs : Fs) : Prop where
  tabled : fs.Tabled
  small : ∀ k < fs.count, (fs.files k).size ≤ 138 * 512
  agrees : ∀ k < fs.count, fs.Single k → fs.Agrees k

theorem Agrees.transfer (h : fs.Agrees k) (hm : fs.vol.Mapped (fs.files k).inode) (hfile : fs1.files k = fs.files k)
    (hbuf : fs1.bufs (fs.files k).data = fs.bufs (fs.files k).data) (hs : SameFile fs.vol fs1.vol (fs.files k).inode) :
    fs1.Agrees k := by
  refine ⟨by rw [hfile, hs.inode]; exact h.size, fun x hx => ?_⟩
  rw [hfile] at hx ⊢
  have hsize := h.size
  rw [hs.byteAt_eq (hm _ (by omega)), h.bytes x hx]
  unfold byte
  rw [hfile, hbuf]

theorem Coherent.mapped (h : fs.Coherent) (hk : k < fs.count) : fs.vol.Mapped (fs.files k).inode :=
  (h.tabled.kempt.files _ (h.tabled.files k hk).1 (h.tabled.files k hk).2).2

theorem Coherent.same (h : fs.Coherent) (hs : fs.Same fs1) (hv : fs1.vol.Kempt)
    (hkeep : ∀ i, fs.vol.IsFileAt i → SameFile fs.vol fs1.vol i ∧ fs1.vol.IsFileAt i) : fs1.Coherent := by
  refine ⟨h.tabled.same hs hv (fun i hi => (hkeep i hi).2), fun k hk => ?_, fun k hk hsingle => ?_⟩
  · rw [hs.count] at hk
    rw [hs.files k hk]
    exact h.small k hk
  · rw [hs.count] at hk
    have hold : fs.Single k := fun j hj heq => hsingle j (by rw [hs.count]; exact hj) (by rw [hs.files j hj, hs.files k hk, heq])
    exact (h.agrees k hk hold).transfer (h.mapped hk) (hs.files k hk) (hs.bufs _ (h.tabled.old k hk).1) (hkeep _ (h.tabled.files k hk)).1

theorem Coherent.pushed (h : fs.Coherent) (hp : fs.Pushed fs1 f) (hv : fs1.vol.Kempt)
    (hkeep : ∀ i, fs.vol.IsFileAt i → SameFile fs.vol fs1.vol i ∧ fs1.vol.IsFileAt i) (hf : fs1.vol.IsFileAt f.inode)
    (hsmall : f.size ≤ 138 * 512) (hnew : fs1.Agrees fs.count) : fs1.Coherent := by
  refine ⟨h.tabled.pushed hp hv (fun i hi => (hkeep i hi).2) hf, fun k hk => ?_, fun k hk hsingle => ?_⟩
  · rw [hp.count] at hk
    by_cases hlt : k < fs.count
    · rw [hp.files k hlt]
      exact h.small k hlt
    · obtain rfl : k = fs.count := by omega
      rw [hp.new]
      exact hsmall
  · rw [hp.count] at hk
    by_cases hlt : k < fs.count
    · have hold : fs.Single k := fun j hj heq =>
        hsingle j (by rw [hp.count]; omega) (by rw [hp.files j hj, hp.files k hlt, heq])
      have hptr := h.tabled.old k hlt
      exact (h.agrees k hlt hold).transfer (h.mapped hlt) (hp.files k hlt) (hp.bufs _ hptr.1 (ne_of_lt hptr.2))
        (hkeep _ (h.tabled.files k hlt)).1
    · obtain rfl : k = fs.count := by omega
      exact hnew

/-- **An entry loaded from disk agrees with it**, whatever the allocator answered before. -/
theorem Loads.agrees (hl : Loads e fs fs1 ino f) (hvol : fs1.vol = fs.vol) (hi : fs.vol.Allocated ino) (hm : fs.vol.Mapped ino) :
    fs1.Agrees fs.count := by
  rcases loadData_cases e hi.1 hm with ⟨buf, hload, hbuf⟩ | ⟨-, size, hload⟩
  · have heq := some.inj (hl.load.symm.trans hload)
    have hsize : f.size = (fs.vol.inode ino).size := (Prod.mk.inj heq).1
    have hbytes : (fs1.bufs fs.next).bytes = buf := some.inj (Prod.mk.inj heq).2
    refine ⟨by rw [hl.pushed.new, hl.inode, hvol, hsize], fun x hx => ?_⟩
    rw [hl.pushed.new] at hx ⊢
    unfold byte
    rw [hl.pushed.new, hl.inode, hl.pushed.data, hvol, hbytes]
    exact (hbuf x (by omega)).symm
  · have heq := some.inj (hl.load.symm.trans hload)
    cases (Prod.mk.inj heq).2

theorem Coherent.loads (h : fs.Coherent) (hvol : fs1.vol = fs.vol) (hi : fs.vol.IsFileAt ino) (hl : Loads e fs fs1 ino f) :
    fs1.Coherent := by
  have hm := (h.tabled.kempt.files ino hi.1 hi.2).2
  have hnew := hl.agrees hvol hi.1 hm
  refine h.pushed hl.pushed (by rw [hvol]; exact h.tabled.kempt) (fun i hi => by rw [hvol]; exact ⟨SameFile.refl _ _, hi⟩)
    (by rw [hvol, hl.inode]; exact hi) ?_ hnew
  have hsize := hnew.size
  rw [hl.pushed.new, hl.inode, hvol] at hsize
  rw [← hsize]
  exact hm.size_le

/-- What a lookup or creation gives: a coherent table with no fewer entries, and a slot of it. -/
structure Answers (fs : Fs) (r : Fs × Option Nat) : Prop where
  coherent : r.1.Coherent
  count : fs.count ≤ r.1.count
  slot : ∀ k, r.2 = some k → k < r.1.count

theorem Coherent.lookup (h : fs.Coherent) (e : Heap) (nm : List UInt8) : fs.Answers (fs.lookup e nm) := by
  have hvol := lookup_vol e fs nm
  rcases lookup_cases e fs nm with ⟨hs, hk⟩ | ⟨ino, f, hres, -, hfile, hl, hk⟩
  · refine ⟨h.same hs (by rw [hvol]; exact h.tabled.kempt) (fun i hi => by rw [hvol]; exact ⟨SameFile.refl _ _, hi⟩),
      le_of_eq hs.count.symm, fun k hx => ?_⟩
    rw [hs.count]
    exact (cached_some (hk k hx)).1
  have hf := h.tabled.kempt.filed
  have hi := hf.resolve_allocated hf.root.1 hres
  have hcount := hl.pushed.count
  refine ⟨h.loads hvol ⟨hi, hfile⟩ hl, by omega, fun k hx => ?_⟩
  obtain rfl := some.inj (hk.symm.trans hx)
  omega

theorem Coherent.creat (h : fs.Coherent) (he : e.Ok) (nm : Name) : fs.Answers (fs.creat e nm) := by
  have hk := h.tabled.kempt
  rcases creat_cases e fs nm with ⟨hnone, hr | hr⟩ | ⟨hnone, hs, hvol⟩ | ⟨v, ino, f, hc, hp, hino, hsize, hvol, hsome⟩
  · refine ⟨by rw [hr]; exact h, by rw [hr], fun k hx => ?_⟩
    rw [hnone] at hx
    cases hx
  · have hl := h.lookup (e.sub 0) nm
    refine ⟨by rw [hr]; exact hl.coherent, by rw [hr]; exact hl.count, fun k hx => ?_⟩
    rw [hnone] at hx
    cases hx
  · refine ⟨h.same hs (by rw [hvol]; exact hk.creatAt (he.sub 1) hk.filed.root nm)
      (fun i hi => by rw [hvol]; exact hk.creatAt_keeps (he.sub 1) hk.filed.root nm hi), le_of_eq hs.count.symm, fun k hx => ?_⟩
    rw [hnone] at hx
    cases hx
  · have hcount := hp.count
    have hnew := hk.creatAt_new (he.sub 1) hk.filed.root hc
    have hv : (fs.creat e nm).1.vol = (fs.vol.creatAt (e.sub 1) fs.vol.sb.rootIno nm).1 := by rw [hvol, hc]
    refine ⟨h.pushed hp (by rw [hv]; exact hk.creatAt (he.sub 1) hk.filed.root nm)
      (fun i hi => by rw [hv]; exact hk.creatAt_keeps (he.sub 1) hk.filed.root nm hi) ?_ (by omega) ⟨?_, fun x hx => ?_⟩,
      by omega, fun k hx => ?_⟩
    · rw [hvol, hino]
      exact hnew.1
    · rw [hp.new, hvol, hino, hsize]
      exact hnew.2
    · rw [hp.new, hsize] at hx
      omega
    · obtain rfl := some.inj (hsome.symm.trans hx)
      omega

/-- **A write that succeeds** brings the entry and the disk together. -/
theorem Coherent.write {offset : Nat} {data : List UInt8} (h : fs.Coherent) (hk : k < fs.count)
    (hlt : offset + data.length + 511 < 2 ^ 32) (hok : (fs.write e k offset data).2 ≠ none) :
    (fs.write e k offset data).1.Coherent ∧ (fs.write e k offset data).1.count = fs.count := by
  by_cases hne : data = []
  · rw [show fs.write e k offset data = (fs, some 0) from if_pos hne]
    exact ⟨h, rfl⟩
  rcases write_poked (e := e) (k := k) hne (by omega : offset + data.length < 2 ^ 32) with hfail | hp
  · rw [hfail] at hok
    exact absurd rfl hok
  generalize fs.write e k offset data = r at hp hok
  have hfile := h.tabled.files k hk
  have hs : (r.1.files k).size + 511 < 2 ^ 32 := by
    have := h.small k hk
    rw [hp.size]
    omega
  have hst := storeData_spec h.tabled.kempt.filed.sound hfile.1 (r.1.byte k) (by omega : (r.1.files k).size < 2 ^ 32)
  have hstored : (fs.vol.storeData (fs.files k).inode (r.1.byte k) (r.1.files k).size).2 = .ok := by
    by_contra hx
    rw [hp.answer, if_neg hx] at hok
    exact hok rfl
  have hv : r.1.vol.Kempt := by
    rw [hp.vol]
    exact h.tabled.kempt.store hfile.1 hfile.2 hst hstored hs
  refine ⟨⟨h.tabled.poked hk hp hv (fun i hi => by rw [hp.vol]; exact hst.isFileAt hi), fun j hj => ?_, fun j hj hsingle => ?_⟩, hp.count⟩
  · rw [hp.count] at hj
    by_cases hjk : j = k
    · rw [hjk]
      exact hst.size_le hstored hs
    · rw [hp.others j hjk]
      exact h.small j hj
  · by_cases hjk : j = k
    · subst hjk
      refine ⟨?_, fun x hx => ?_⟩
      · rw [hp.inode, hp.vol]
        exact hst.newSize hstored
      · rw [hp.inode, hp.vol]
        exact hst.byteAt_ok hstored hs hx
    · rw [hp.count] at hj
      have hino : (fs.files j).inode ≠ (fs.files k).inode := fun heq =>
        hjk (hsingle k (by rw [hp.count]; exact hk) (by rw [hp.inode, hp.others j hjk, heq])).symm
      have hold : fs.Single j := fun i hi heq => by
        refine hsingle i (by rw [hp.count]; exact hi) ?_
        have hik : i ≠ k := by
          rintro rfl
          exact hino heq.symm
        rw [hp.others i hik, hp.others j hjk, heq]
      have hptr := h.tabled.old j hj
      refine (h.agrees j hj hold).transfer (h.mapped hj) (hp.others j hjk) (hp.bufs _ (ne_of_lt hptr.2) (fun heq => ?_)) ?_
      · rcases hp.ptr with ⟨hd, -⟩ | ⟨hd, -⟩
        · exact hjk (h.tabled.apart j hj k hk (heq.trans hd))
        · omega
      · rw [hp.vol]
        exact hst.others _ (h.tabled.files j hj).1 hino

theorem Coherent.load (h : fs.Coherent) (hk : k < fs.count) (hsingle : fs.Single k) (he : e.Ok) :
    ∃ buf, fs.vol.loadData e (fs.files k).inode = some ((fs.files k).size, some buf) ∧
      ∀ x < (fs.files k).size, buf x = fs.byte k x := by
  have ha := h.agrees k hk hsingle
  obtain ⟨buf, hload, hbuf⟩ := loadData_mapped he (h.tabled.files k hk).1.1 (h.mapped hk)
  rw [ha.size] at hload hbuf
  exact ⟨buf, hload, fun x hx => (hbuf x hx).trans (ha.bytes x hx)⟩

end Fs

/-! ## The table after `noxfs_init` -/

namespace Fs

variable {fs : Fs} {e : Heap}

theorem bare_coherent {v : Vol} (hv : v.Kempt) : (bare v).Coherent where
  tabled := ⟨hv, Nat.zero_le _, fun k hk => absurd hk (Nat.not_lt_zero k), fun k hk => absurd hk (Nat.not_lt_zero k),
    fun k hk => absurd hk (Nat.not_lt_zero k), Nat.lt_succ_self 8⟩
  small k hk := absurd hk (Nat.not_lt_zero k)
  agrees k hk := absurd hk (Nat.not_lt_zero k)

theorem Coherent.scanEntries (e : Heap) : ∀ (rs : List Dirent) (i : Nat) (fs : Fs), fs.Coherent →
    (∀ r ∈ rs, r.inode ≠ 0 → r.kind = ftFile → fs.vol.IsFileAt r.inode) → (scanEntries e i rs fs).Coherent
  | [], _, _, h, _ => h
  | r :: rs, i, fs, h, hfiles => by
    have hrest : ∀ r ∈ rs, r.inode ≠ 0 → r.kind = ftFile → fs.vol.IsFileAt r.inode :=
      fun r hr => hfiles r (mem_cons_of_mem _ hr)
    unfold Fs.scanEntries
    split
    · rename_i hroom
      split
      · exact Coherent.scanEntries e rs (i + 1) fs h hrest
      rename_i hr
      push Not at hr
      have hvol := cacheFile_vol (e.sub i) fs (r.name.take 31) r.inode
      refine Coherent.scanEntries e rs (i + 1) _ ?_ (by rw [hvol]; exact hrest)
      rcases cacheFile_cases (e.sub i) fs (r.name.take 31) r.inode hroom with ⟨-, hs⟩ | ⟨-, f, hl⟩
      · exact h.same hs (by rw [hvol]; exact h.tabled.kempt) (fun j hj => by rw [hvol]; exact ⟨SameFile.refl _ _, hj⟩)
      · exact h.loads hvol (hfiles r mem_cons_self hr.1 hr.2) hl
    · exact h

/-- **`noxfs_init`**, on a volume whose root directory names regular files as such. -/
theorem dirScan_coherent {v : Vol} (he : e.Ok) (hv : v.Kempt)
    (hroot : ∀ r ∈ v.entries v.sb.rootIno, r.inode ≠ 0 → r.kind = ftFile → (v.inode r.inode).isFile = true)
    (hscan : (bare v).dirScan e v.sb.rootIno = some fs) : fs.Coherent := by
  have hr := hv.filed.root
  have hd := hv.filed.dirs _ hr
  obtain ⟨buf, hload, hbuf⟩ := loadData_mapped (he.sub 0) hr.1.1 hd.mapped
  unfold dirScan at hscan
  rw [show (bare v).vol = v from rfl, iread_of_lt hr.1.1, hload] at hscan
  simp only [hr.2, Bool.true_eq_false, if_false, some.injEq] at hscan
  have hent : (List.range ((v.inode v.sb.rootIno).size / 32)).map (direntAt buf) = v.entries v.sb.rootIno := by
    refine map_congr_left (fun k hk => ?_)
    exact hd.direntAt_eq hbuf (mem_range.1 hk)
  rw [hent] at hscan
  rw [← hscan]
  refine Coherent.scanEntries (e.sub 1) _ _ _ (bare_coherent hv) (fun r hmem h0 hk => ?_)
  exact ⟨hv.filed.live _ hr r hmem h0, hroot r hmem h0 hk⟩

end Fs

/-! ## The calls -/

namespace Files

variable {s : Files} {e : Env} {p : Nat} {path : List UInt8} {flags : Nat}

structure InOrder (s : Files) : Prop where
  fs : s.fs.Coherent
  opened : ∀ q k, (s.fd.fds q).kind = .file (.nox k) → k < s.fs.count
  pool : s.poolNext < 8

structure Finds (s : Files) (r : Files × Option Found) : Prop where
  fd : r.1.fd = s.fd
  fs : r.1.fs.Coherent
  pool : r.1.poolNext < 8
  count : s.fs.count ≤ r.1.fs.count
  slot : ∀ k, r.2 = some (.file (.nox k)) → k < r.1.fs.count

theorem devKind_ne_file (ino : Nat) (f : FileRef) : devKind ino ≠ some (.file f) := by
  unfold devKind
  split
  · simp
  split
  · simp
  · split
    · simp
    · split <;> simp

theorem foundSlot_nox {fs : Fs} {j k : Nat} (h : foundSlot fs j = .file (.nox k)) : j = k := by
  unfold foundSlot at h
  cases hd : devKind (fs.files j).inode with
  | none =>
    rw [hd] at h
    exact FileRef.nox.inj (Found.file.inj h)
  | some x =>
    rw [hd] at h
    exact absurd (hd.trans (congrArg some h)) (devKind_ne_file _ _)

theorem Finds.of_slot {r : Fs × Option Nat} (hpool : s.poolNext < 8) (h : s.fs.Answers r) :
    Finds s ({ s with fs := r.1 }, r.2.map (foundSlot r.1)) := by
  refine ⟨rfl, h.coherent, hpool, h.count, fun k hk => ?_⟩
  obtain ⟨j, hj, hjk⟩ := map_eq_some_iff.1 hk
  obtain rfl := foundSlot_nox hjk
  exact h.slot j hj

theorem genFile_same (s : Files) (text : List UInt8) (hc : s.fs.count ≤ noxfsMaxFiles) (hpool : s.poolNext < 8) :
    s.fs.Same (s.genFile text).1.fs := by
  refine ⟨rfl, fun k hk => update_of_ne ?_ _ _, rfl, fun p hp => update_of_ne ?_ _ _⟩
  · simp only [FileRef.slot]
    omega
  · unfold poolData
    omega

theorem noxLookupAt_answers (h : Heap) {fs : Fs} (hf : fs.Coherent) (cwd : Nat) (path : List UInt8) :
    fs.Answers (noxLookupAt h fs cwd path) := by
  unfold noxLookupAt
  split
  · exact hf.lookup h path
  split
  · exact ⟨hf, le_refl _, fun k hk => by cases hk⟩
  · split
    · rename_i k hk
      refine ⟨hf, le_refl _, fun j hj => ?_⟩
      obtain rfl := some.inj hj
      exact (slotOfInode_some hk).1
    · exact hf.lookup (h.sub 1) _

theorem InOrder.vfsLookupAt (h : s.InOrder) (e : Env) (cwd : Nat) (path : List UInt8) : Finds s (s.vfsLookupAt e cwd path) := by
  unfold Files.vfsLookupAt
  split
  · split
    · have hsame := genFile_same s e.text h.fs.tabled.count h.pool
      refine ⟨rfl, h.fs.same hsame h.fs.tabled.kempt (fun i hi => ⟨SameFile.refl _ _, hi⟩), Nat.mod_lt _ (by decide),
        le_of_eq hsame.count.symm, fun k hk => ?_⟩
      cases hk
    · exact ⟨rfl, h.fs, h.pool, le_refl _, fun k hk => by cases hk⟩
  · split
    · refine ⟨rfl, h.fs, h.pool, le_refl _, fun k hk => ?_⟩
      obtain ⟨i, -, hi⟩ := bind_eq_some_iff.1 hk
      exact absurd hi (devKind_ne_file i _)
    · exact Finds.of_slot h.pool (noxLookupAt_answers e.heap h.fs cwd path)

theorem InOrder.openLookup (h : s.InOrder) (he : e.heap.Ok) : Finds s (s.openLookup e p path flags) := by
  unfold Files.openLookup
  have hl := h.vfsLookupAt { e with heap := e.heap.sub 0 } (s.cwdIno p) path
  generalize s.vfsLookupAt { e with heap := e.heap.sub 0 } (s.cwdIno p) path = r at hl
  dsimp only
  split
  · have hc := Finds.of_slot (s := r.1) hl.pool (hl.fs.creat (he.sub 1) path)
    exact ⟨hc.fd.trans hl.fd, hc.fs, hc.pool, hl.count.trans hc.count, hc.slot⟩
  · exact hl

/-- **`sys_open` without `O_TRUNC`.** -/
theorem InOrder.sysOpen (h : s.InOrder) (he : e.heap.Ok) (hflags : flags &&& oTrunc = 0) : (s.sysOpen e p path flags).1.InOrder := by
  have hf : Finds s (s.openLookup e p path flags) := h.openLookup he
  have hold : ∀ q k, ((s.openLookup e p path flags).1.fd.fds q).kind = .file (.nox k) → k < (s.openLookup e p path flags).1.fs.count :=
    fun q k hk => lt_of_lt_of_le (h.opened q k (by rw [← hf.fd]; exact hk)) hf.count
  unfold Files.sysOpen
  generalize s.openLookup e p path flags = r at hf hold
  obtain ⟨t, o⟩ := r
  cases o with
  | none => exact ⟨hf.fs, hold, hf.pool⟩
  | some f =>
    simp only [hflags, ne_eq, not_true_eq_false, if_false]
    refine ⟨hf.fs, fun q k hk => ?_, hf.pool⟩
    rcases FdSys.sysOpen_kind hk with hq | rfl
    · exact hold q k hq
    · exact hf.slot k rfl

/-- A write through descriptor `n` to slot `k` does not wrap around, and goes to the buffer of the entry and not beyond: as
the entry of an empty file claims more than was allocated, a larger write would go to another file's buffer. -/
structure Inside (s : Files) (q : Nat × Nat) (k len : Nat) : Prop where
  lt : (s.fd.fds q).offset + len + 511 < 2 ^ 32
  fits : (s.fd.fds q).offset + len ≤ (s.fs.files k).capacity →
    (s.fd.fds q).offset + len ≤ Fs.up16 (s.fs.bufs (s.fs.files k).data).len

/-- The call opens without `O_TRUNC`, writes to a file of NoxFS and succeeds, or leaves the file system alone. -/
def InOrderOk (s : Files) (c : Env × Nat × Call) : Prop :=
  c.1.heap.Ok ∧ match c.2.2 with
  | .openFile _ flags => flags &&& oTrunc = 0
  | .write fd data => (s.step c).2 ≠ .num (-1) ∧ ∀ n f, s.target c.2.1 fd 1 = some n → (s.fd.fds (c.2.1, n)).kind = .file f →
      ∃ k, f = .nox k ∧ Inside s (c.2.1, n) k data.length
  | .unlink _ => False
  | .rename _ _ => False
  | _ => True

theorem InOrder.quiet {t : Files} (h : s.InOrder) (hq : Quiet s t) : t.InOrder := by
  refine ⟨by rw [hq.fs]; exact h.fs, fun q k hk => ?_, by rw [hq.poolNext]; exact h.pool⟩
  obtain ⟨q', hq'⟩ := hq.keeps q _ hk
  rw [hq.fs]
  exact h.opened q' k hq'

theorem InOrder.sysWrite {fd : Int} {data : List UInt8} (h : s.InOrder) (hok : (s.sysWrite e.heap p fd data).2 ≠ .num (-1))
    (hin : ∀ n f, s.target p fd 1 = some n → (s.fd.fds (p, n)).kind = .file f → ∃ k, f = .nox k ∧ Inside s (p, n) k data.length) :
    (s.sysWrite e.heap p fd data).1.InOrder := by
  rcases sysWrite_cases e.heap s p fd data with hs | ⟨n, f, ht, hk, hfs, hpool, hkeeps, hfail⟩
  · rw [hs]
    exact h
  obtain ⟨k, rfl, hlt, -⟩ := hin n f ht hk
  have htake : data.take (data.length % 2 ^ 32) = data := by rw [Nat.mod_eq_of_lt (by omega), take_length]
  rw [htake] at hfs hfail
  obtain ⟨hc, hcount⟩ := h.fs.write (h.opened _ k hk) hlt (fun hx => hok (hfail hx))
  refine ⟨by rw [hfs]; exact hc, fun q j hj => ?_, by rw [hpool]; exact h.pool⟩
  obtain ⟨q', hq'⟩ := hkeeps q _ hj
  rw [hfs]
  exact Nat.lt_of_lt_of_eq (h.opened q' j hq') hcount.symm

theorem InOrder.step (h : s.InOrder) (c : Env × Nat × Call) (hok : InOrderOk s c) : (s.step c).1.InOrder := by
  obtain ⟨e, p, c⟩ := c
  obtain ⟨he, hok⟩ := hok
  by_cases hlive : p ∈ s.fd.live
  · have hstep : s.step (e, p, c) = s.call e p c := if_pos hlive
    rw [hstep]
    cases c with
    | openFile path flags => exact h.sysOpen he hok
    | write fd data =>
      dsimp only at hok
      rw [hstep] at hok
      exact h.sysWrite hok.1 hok.2
    | unlink path => exact absurd hok id
    | rename a b => exact absurd hok id
    | _ => exact h.quiet (call_quiet e s p rfl)
  · rw [show s.step (e, p, c) = (s, .num (-1)) from if_neg hlive]
    exact h

/-- **Cached file and disk agree.**  The volume `v` is mounted and its root directory scanned.  In every run of calls that
succeed, without `O_TRUNC` and with every write going to a file of NoxFS and inside its buffer, every cached file that has a
single entry is on disk with the size and the contents of the entry. -/
theorem cache_agrees (v : Vol) (e0 : Heap) (fs0 : Fs) (cwd : Nat → Nat) (he0 : e0.Ok) (hv : v.Kempt)
    (hroot : ∀ r ∈ v.entries v.sb.rootIno, r.inode ≠ 0 → r.kind = ftFile → (v.inode r.inode).isFile = true)
    (hscan : (Fs.bare v).dirScan e0 v.sb.rootIno = some fs0) (cs : List (Env × Nat × Call))
    (hok : ∀ pre c post, cs = pre ++ c :: post → InOrderOk (run step ⟨FdSys.boot, fs0, cwd, 0⟩ pre).1 c) (fs : Fs)
    (hfs : (run step ⟨FdSys.boot, fs0, cwd, 0⟩ cs).1.fs = fs) (k : Nat) (hk : k < fs.count) (hsingle : fs.Single k) :
    (fs.vol.inode (fs.files k).inode).size = (fs.files k).size ∧
    ∀ e : Heap, e.Ok → ∃ buf, fs.vol.loadData e (fs.files k).inode = some ((fs.files k).size, some buf) ∧
      ∀ x < (fs.files k).size, buf x = fs.byte k x := by
  have hstart : InOrder ⟨FdSys.boot, fs0, cwd, 0⟩ :=
    ⟨Fs.dirScan_coherent he0 hv hroot hscan, fun q k hk => absurd hk (boot_no_file q _), Nat.zero_lt_succ 7⟩
  have hend := run_inv (P := InOrder) (C := InOrderOk) (fun s c h hc => h.step c hc) cs _ hstart hok
  have hc : fs.Coherent := hfs ▸ hend.fs
  exact ⟨(hc.agrees k hk hsingle).size, fun e he => hc.load hk hsingle he⟩

theorem rootVol_kempt : rootVol.Kempt := by
  refine ⟨rootVol_filed, fun i _ hf => ?_⟩
  rw [rootVol_inode] at hf
  split at hf
  · exact absurd hf (by decide +kernel)
  · exact absurd hf (by decide)

theorem rootVol_no_entries : rootVol.entries rootVol.sb.rootIno = [] := by decide +kernel

def rootFiles : Files := ⟨FdSys.boot, Fs.bare rootVol, fun _ => 0, 0⟩

def writeNew : List (Env × Nat × Call) := [(calmEnv, 1, .openFile [97] 64), (calmEnv, 1, .write 3 [1, 2, 3])]

theorem cache_agrees_written : ((run step rootFiles writeNew).1.fs.vol.inode ((run step rootFiles writeNew).1.fs.files 0).inode).size = 3 := by
  have hcount : (run step rootFiles writeNew).1.fs.count = 1 := by decide +kernel
  have hsize : ((run step rootFiles writeNew).1.fs.files 0).size = 3 := by decide +kernel
  refine ((cache_agrees rootVol calm (Fs.bare rootVol) (fun _ => 0) calm_ok rootVol_kempt ?_ ?_ writeNew ?_ _ rfl 0 ?_ ?_).1).trans hsize
  · rw [rootVol_no_entries]
    exact fun r hr => absurd hr (by simp)
  · rfl
  · refine splits_cons.2 ⟨⟨calm_ok, by decide⟩, splits_cons.2 ⟨?_, splits_nil⟩⟩
    refine ⟨calm_ok, by decide +kernel, fun n f hn hf => ?_⟩
    set w := run step rootFiles [(calmEnv, 1, .openFile [97] 64)]
    have h3 : w.1.target 1 3 1 = some 3 := by decide +kernel
    have hkind : (w.1.fd.fds (1, 3)).kind = .file (.nox 0) := by
      decide +kernel
    obtain rfl := some.inj (h3.symm.trans hn)
    exact ⟨0, FdKind.file.inj (hf.symm.trans hkind), by decide +kernel, by decide +kernel⟩
  · exact Nat.lt_of_lt_of_eq Nat.zero_lt_one hcount.symm
  · intro j hj _
    exact Nat.lt_one_iff.1 (Nat.lt_of_lt_of_eq hj hcount)

def emptied : Files × List Answer :=
  run step rootFiles (writeNew ++ [(calmEnv, 1, .close 3), (calmEnv, 1, .openFile [97] 0x200)])

/-- **`O_TRUNC`**: no call fails; the entry, the only one, is empty, and on disk the file has three bytes. -/
theorem truncated_in_cache_only : emptied.2 = [.num 3, .num 3, .num 0, .num 3] ∧ emptied.1.fs.count = 1 ∧
    (emptied.1.fs.files 0).size = 0 ∧ (emptied.1.fs.vol.inode (emptied.1.fs.files 0).inode).size = 3 :=
  ⟨by decide +kernel, by decide +kernel, by decide +kernel, by decide +kernel⟩

end Files
end Noxis
