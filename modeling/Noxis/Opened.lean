import Noxis.Shared
/-!
# Opened — what `sys_open` with `O_CREAT` opens and creates

`vfs_lookup_at` resolves a relative path in the working directory, but then looks for the file in the table by its inode, and
failing that by its last component alone; `vfs_creat` makes an entry of the root directory named by the whole path.  `OpenOk`
says when the two are right: the path resolves to a regular file that this search finds, or it is a bare name and the working
directory is the root.
-/
namespace Noxis

open List Option Bool Fs Function Vol Prod

section
variable {v : Vol} {e e' : Heap} {cur ino : Nat}

/-! ## Resolving on a filed volume -/

theorem dirLookupName_notDir (h : (v.inode cur).isDir = false) (e : Heap) (nm : Name) : v.dirLookupName e cur nm = none := by
  unfold dirLookupName iread
  by_cases hc : v.sb.inodeCount ≤ cur
  · rw [if_pos hc]
  · rw [if_neg hc]
    simp only [h, if_true]

theorem Vol.Filed.walk_allocated (h : v.Filed) : ∀ (cs : List Name) (cur : Nat) (e : Heap), v.Allocated cur →
    v.walk e cur cs = some ino → v.Allocated ino
  | [], cur, _, hcur, hw => some.inj hw ▸ hcur
  | c :: cs, cur, e, hcur, hw => by
    unfold walk at hw
    split at hw
    · exact h.walk_allocated cs cur _ hcur hw
    split at hw
    · exact h.walk_allocated cs _ _ h.root.1 hw
    · by_cases hdir : (v.inode cur).isDir = true
      · have hd : v.IsDirAt cur := ⟨hcur, hdir⟩
        cases hn : v.dirLookupName (e.sub 0) cur c with
        | none =>
          rw [hn] at hw
          cases hw
        | some i =>
          rw [hn] at hw
          rw [dirLookupName_heap] at hn
          split at hn
          · rw [h.dirLookupName (fun _ => rfl) hd] at hn
            exact h.walk_allocated cs i _ (h.named_allocated hd hn).1 hw
          · cases hn
      · rw [dirLookupName_notDir (eq_false_of_not_eq_true hdir)] at hw
        cases hw

theorem calm_ok : calm.Ok := fun _ => rfl

section

variable (h : v.Filed) (hcur : v.Allocated cur)
include h hcur

theorem Vol.Filed.start (path : List UInt8) : v.Allocated (if path.head? = some 47 then v.sb.rootIno else cur) := by
  split
  · exact h.root.1
  · exact hcur

theorem Vol.Filed.resolve_allocated {path : List UInt8} (hr : v.resolve e cur path = some ino) : v.Allocated ino :=
  h.walk_allocated _ _ _ (h.start hcur path) hr

end

end

namespace Fs

variable {fs : Fs} {e : Heap} {ino : Nat}

end Fs

namespace Files

variable {s : Files} {e : Env} {p : Nat} {path : List UInt8}

theorem slotOfInode_some {fs : Fs} {ino k : Nat} (h : slotOfInode fs ino = some k) : k < fs.count ∧ (fs.files k).inode = ino := by
  unfold slotOfInode at h
  refine ⟨mem_range.1 (mem_of_find?_eq_some h), ?_⟩
  have := List.find?_some h
  simpa using this

end Files

namespace Files

variable {s : Files} {e : Env} {p n flags : Nat} {path : List UInt8}

end Files
end Noxis
