import Noxis.Pipe
/-!
# Fd — descriptor tables and pipe references (`proc/fd.c`, `proc/pipe.c`, `sys_fork`, `sys_exit`)

`FdSys` is the part of the kernel that descriptors live in: the processes that are not zombies, their descriptor tables
and the pipe pool.  Processes are named in order of their creation.  Descriptors are copied by value, so every operation
that makes or drops a copy of a pipe end has to account for it with `pipe_addref` or `pipe_close`.
-/
namespace Noxis

/-- A `vfs_file_t*`: a slot of `g_files`, or of the pools of procfs and devfs. -/
inductive FileRef where
  | nox (i : Nat)
  | proc (i : Nat)
  | dev (i : Nat)
  deriving DecidableEq, Repr

/-- The kind of a descriptor together with its `file` pointer. -/
inductive FdKind where
  | closed
  | conIn
  | conOut
  | file (f : FileRef)
  | pipe (e : PipeEnd) (i : Nat)
  | devNull
  | devZero
  | devRandom
  | devTty
  deriving DecidableEq, Repr

structure Fd where
  kind : FdKind
  offset : Nat
  deriving DecidableEq, Repr

def Fd.closed : Fd := ⟨.closed, 0⟩

def procMaxFds : Nat := 16

def npipes : Nat := 16

/-- What a lookup in `sys_open` finds: an ordinary file, or a device file that `_dev_kind` knows. -/
inductive Found where
  | file (f : FileRef)
  | null
  | zero
  | tty
  | random

def Found.kind : Found → FdKind
  | .file f => .file f
  | .null => .devNull
  | .zero => .devZero
  | .tty => .devTty
  | .random => .devRandom

structure FdSys where
  live : Finset Nat
  next : Nat
  fds : Nat × Nat → Fd
  pipes : Nat → Pipe

namespace FdSys

def addref (pipes : Nat → Pipe) : FdKind → Nat → Pipe
  | .pipe e i => Function.update pipes i ((pipes i).addref e)
  | _ => pipes

def drop (pipes : Nat → Pipe) : FdKind → Nat → Pipe
  | .pipe e i => Function.update pipes i ((pipes i).close e)
  | _ => pipes

/-- `fd_get`: the descriptor number, when it names an open descriptor of process `p`. -/
def fdGet (s : FdSys) (p : Nat) (fd : Int) : Option Nat :=
  if fd < 0 ∨ (procMaxFds : Int) ≤ fd then none
  else if (s.fds (p, fd.toNat)).kind = .closed then none else some fd.toNat

def firstClosed (s : FdSys) (p start : Nat) : Option Nat :=
  (List.range procMaxFds).find? (fun fd => decide (start ≤ fd) && decide ((s.fds (p, fd)).kind = .closed))

def setFd (s : FdSys) (p fd : Nat) (x : Fd) : FdSys := { s with fds := Function.update s.fds (p, fd) x }

/-- `sys_pipe`, up to the store of the two numbers. -/
def sysPipe (s : FdSys) (p : Nat) : FdSys × Option (Nat × Nat) :=
  match s.firstClosed p 0 with
  | none => (s, none)
  | some rfd =>
    match s.firstClosed p (rfd + 1) with
    | none => (s, none)
    | some wfd =>
      match (List.range npipes).find? (fun i => !(s.pipes i).used) with
      | none => (s, none)
      | some i =>
        ((({ s with pipes := Function.update s.pipes i (s.pipes i).opened }).setFd p rfd ⟨.pipe .r i, 0⟩).setFd p wfd
          ⟨.pipe .w i, 0⟩, some (rfd, wfd))

/-- `sys_open` once the lookup has answered `o`. -/
def sysOpen (s : FdSys) (p : Nat) (o : Option Found) : FdSys × Int :=
  match o with
  | none => (s, -1)
  | some f =>
    match s.firstClosed p 3 with
    | none => (s, -1)
    | some fd => (s.setFd p fd ⟨f.kind, 0⟩, fd)

def sysClose (s : FdSys) (p : Nat) (fd : Int) : FdSys × Int :=
  match s.fdGet p fd with
  | none => (s, -1)
  | some fd => (({ s with pipes := drop s.pipes (s.fds (p, fd)).kind }).setFd p fd .closed, 0)

def sysDup (s : FdSys) (p : Nat) (fd : Int) : FdSys × Int :=
  match s.fdGet p fd with
  | none => (s, -1)
  | some fd =>
    match s.firstClosed p 0 with
    | none => (s, -1)
    | some i => (({ s with pipes := addref s.pipes (s.fds (p, fd)).kind }).setFd p i (s.fds (p, fd)), i)

def sysDup2 (s : FdSys) (p : Nat) (oldfd newfd : Int) : FdSys × Int :=
  match s.fdGet p oldfd with
  | none => (s, -1)
  | some old =>
    if newfd < 0 ∨ (procMaxFds : Int) ≤ newfd then (s, -1)
    else if oldfd = newfd then (s, newfd)
    else
      (({ s with pipes := addref (drop s.pipes (s.fds (p, newfd.toNat)).kind) (s.fds (p, old)).kind }).setFd p newfd.toNat
        (s.fds (p, old)), newfd)

/-- The loop of `sys_fork` over the descriptors: `child` gets the first `n` of them. -/
def copyFds (p child : Nat) : Nat → FdSys → FdSys
  | 0, s => s
  | n + 1, s =>
    let t := copyFds p child n s
    ({ t with pipes := addref t.pipes (t.fds (p, n)).kind }).setFd child n (t.fds (p, n))

/-- A process fresh from `proc_alloc`, before `sys_fork` copies the descriptors over the standard ones. -/
def procAlloc (s : FdSys) : FdSys :=
  { s with
    live := insert s.next s.live
    next := s.next + 1
    fds := fun q => if q.1 = s.next then
      (if q.2 = 0 then ⟨.conIn, 0⟩ else if q.2 = 1 ∨ q.2 = 2 then ⟨.conOut, 0⟩ else .closed) else s.fds q }

def sysFork (s : FdSys) (p : Nat) (ok : Bool) : FdSys × Int :=
  if ok then (copyFds p s.next procMaxFds s.procAlloc, s.next) else (s, -1)

def closeEnds (p : Nat) : Nat → FdSys → FdSys
  | 0, s => s
  | n + 1, s =>
    let t := closeEnds p n s
    { t with pipes := drop t.pipes (t.fds (p, n)).kind }

/-- `sys_exit`: the process becomes a zombie with its table as it was. -/
def sysExit (s : FdSys) (p : Nat) : FdSys :=
  let t := closeEnds p procMaxFds s
  { t with live := t.live.erase p }

/-- A system call that works on descriptors; `exec` leaves them alone. -/
inductive Call where
  | pipe
  | openFile (o : Option Found)
  | dup (fd : Int)
  | dup2 (oldfd newfd : Int)
  | close (fd : Int)
  | fork (ok : Bool)
  | exec
  | exit

def call (s : FdSys) (p : Nat) : Call → FdSys × Int
  | .pipe => ((s.sysPipe p).1, if (s.sysPipe p).2.isSome then 0 else -1)
  | .openFile o => s.sysOpen p o
  | .dup fd => s.sysDup p fd
  | .dup2 oldfd newfd => s.sysDup2 p oldfd newfd
  | .close fd => s.sysClose p fd
  | .fork ok => s.sysFork p ok
  | .exec => (s, 0)
  | .exit => (s.sysExit p, 0)

/-- Only a process that is not a zombie makes calls. -/
def step (s : FdSys) (c : Nat × Call) : FdSys × Int := if c.1 ∈ s.live then s.call c.1 c.2 else (s, -1)

/-- The idle context, whose table is all zero, and the two processes `kernel_main` registers. -/
def boot : FdSys :=
  procAlloc (procAlloc
    { live := {0}, next := 1, fds := fun _ => .closed, pipes := fun _ => ⟨⟨fun _ => 0, 0, 0, 0⟩, 0, 0, false⟩ })

end FdSys
end Noxis
