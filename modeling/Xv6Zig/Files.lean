/-
Xv6Zig/Files.lean

Open files (`kernel/file.c`), descriptors (`kernel/sysfile.c`) and the ends of
pipes (`kernel/pipe.c`), on top of the memory system.

A `struct file` is one of the hundred slots of the table, a descriptor a slot
of a process's `ofile`.  What inodes and devices do with a file is left out;
of a pipe there are the page it lives in and its two ends.  The result of a
call is the number it returns, `none` for -1; processes go by their slots, not
by their pids.

Any `kalloc` can fail (`withOnly`).  None of these calls asks for another page
after it was refused one, so that a call in which the `kalloc` after the first
`n` fails is a call for which only the first `n` free pages are there.
-/
import Xv6Zig.Proc

namespace Xv6Zig

open Function

/-- A slot of `ftable`, of which there are `NFILE`. -/
abbrev FileIx := Fin 100

/-- A descriptor, of which a process has `NOFILE`. -/
abbrev Fd := Fin 16

/-- `FD_NONE`, `FD_PIPE`, `FD_INODE`, `FD_DEVICE`. -/
inductive FdType
  | none
  | pipe
  | inode
  | device
  deriving DecidableEq, Repr

/-- `struct file`; `pipe` is the page of a pipe. -/
structure File where
  type : FdType
  ref : ℕ
  readable : Bool
  writable : Bool
  pipe : ℕ
  deriving DecidableEq, Repr

/-- A slot of the table as the kernel finds it. -/
def File.empty : File := ⟨.none, 0, false, false, 0⟩

/-- `readopen` and `writeopen` of a pipe. -/
structure PipeEnds where
  readopen : Bool
  writeopen : Bool
  deriving DecidableEq, Repr

namespace PipeEnds

/-- The end is open; `true` is the one for writing. -/
def isOpen (e : PipeEnds) (writable : Bool) : Bool :=
  if writable then e.writeopen else e.readopen

def close (e : PipeEnds) (writable : Bool) : PipeEnds :=
  if writable then { e with writeopen := false } else { e with readopen := false }

@[simp] theorem isOpen_close (e : PipeEnds) (w w' : Bool) :
    (e.close w).isOpen w' = (!(w == w') && e.isOpen w') := by
  cases w <;> cases w' <;> rfl

end PipeEnds

/-- The kernel with its open files; `ends` belongs to the pages of pipes. -/
structure System where
  kernel : Kernel
  ftable : FileIx → File
  ofile : ProcIx × Fd → Option FileIx
  ends : ℕ → PipeEnds

namespace System

@[simps -fullyApplied] def setFile (s : System) (f : FileIx) (file : File) : System :=
  { s with ftable := update s.ftable f file }

@[simps -fullyApplied] def setFd (s : System) (x : ProcIx × Fd) (o : Option FileIx) : System :=
  { s with ofile := update s.ofile x o }

/-! ### `kernel/file.c` and `kernel/pipe.c` -/

def filealloc (s : System) : Option (FileIx × System) :=
  ((List.finRange 100).find? fun f => (s.ftable f).ref = 0).map fun f =>
    (f, s.setFile f { s.ftable f with ref := 1 })

def filedup (s : System) (f : FileIx) : Except Panic System :=
  if (s.ftable f).ref < 1 then .error .filedup
  else .ok (s.setFile f { s.ftable f with ref := (s.ftable f).ref + 1 })

def pipeclose (s : System) (pa : ℕ) (writable : Bool) : Except Panic System :=
  let e := (s.ends pa).close writable
  let s := { s with ends := update s.ends pa e }
  if e.readopen = false ∧ e.writeopen = false then do
    let k ← s.kernel.pipeclose pa
    .ok { s with kernel := k }
  else .ok s

/-- `fileclose`; the `iput` of an inode takes and gives no page. -/
def fileclose (s : System) (f : FileIx) : Except Panic System :=
  let ff := s.ftable f
  if ff.ref < 1 then .error .fileclose
  else if 1 < ff.ref then .ok (s.setFile f { ff with ref := ff.ref - 1 })
  else
    let s := s.setFile f { ff with ref := 0, type := .none }
    match ff.type with
    | .pipe => s.pipeclose ff.pipe ff.writable
    | _ => .ok s

/-- `pipealloc`: the files for reading and for writing. -/
def pipealloc (s : System) : Except Panic (System × Option (FileIx × FileIx)) :=
  match s.filealloc with
  | none => .ok (s, none)
  | some (f0, s) =>
      match s.filealloc with
      | none => do
          let s ← s.fileclose f0
          .ok (s, none)
      | some (f1, s) =>
          match s.kernel.mem.allocPage with
          | none => do
              let s ← s.fileclose f0
              let s ← s.fileclose f1
              .ok (s, none)
          | some (pi, m) =>
              let s := { s with
                kernel := { s.kernel with mem := m, pipes := pi :: s.kernel.pipes }
                ends := update s.ends pi ⟨true, true⟩ }
              let s := s.setFile f0 ⟨.pipe, (s.ftable f0).ref, true, false, pi⟩
              let s := s.setFile f1 ⟨.pipe, (s.ftable f1).ref, false, true, pi⟩
              .ok (s, some (f0, f1))

/-! ### `kernel/sysfile.c` -/

/-- `argfd` of a descriptor that is an `int`. -/
def argfd (s : System) (p : ProcIx) (fd : Int32) : Option (Fd × FileIx) :=
  if h : 0 ≤ fd.toInt ∧ fd.toInt < 16 then
    let i : Fd := ⟨fd.toInt.toNat, by omega⟩
    (s.ofile (p, i)).map fun f => (i, f)
  else none

def fdalloc (s : System) (p : ProcIx) (f : FileIx) : Option (Fd × System) :=
  ((List.finRange 16).find? fun fd => s.ofile (p, fd) = none).map fun fd =>
    (fd, s.setFd (p, fd) (some f))

def sysDup (s : System) (p : ProcIx) (fd : Int32) : Except Panic (System × Option ℕ) :=
  match s.argfd p fd with
  | none => .ok (s, none)
  | some (_, f) =>
      match s.fdalloc p f with
      | none => .ok (s, none)
      | some (fd, s) => do
          let s ← s.filedup f
          .ok (s, some fd)

def sysClose (s : System) (p : ProcIx) (fd : Int32) : Except Panic (System × Option ℕ) :=
  match s.argfd p fd with
  | none => .ok (s, none)
  | some (fd, f) => do
      let s ← (s.setFd (p, fd) none).fileclose f
      .ok (s, some 0)

/-- `sys_open` once the inode is there: what it leaves in the file, and whether
it finds room for one. -/
def sysOpen (s : System) (p : ProcIx) (device readable writable : Bool) :
    Except Panic (System × Option ℕ) :=
  match s.filealloc with
  | none => .ok (s, none)
  | some (f, s) =>
      match s.fdalloc p f with
      | none => do
          let s ← s.fileclose f
          .ok (s, none)
      | some (fd, s) =>
          .ok (s.setFile f { s.ftable f with
            type := if device then .device else .inode
            readable := readable
            writable := writable }, some fd)

/-- The files of a `sys_pipe` that fails are closed. -/
def closeBoth (s : System) (rf wf : FileIx) : Except Panic (System × Option ℕ) := do
  let s ← s.fileclose rf
  let s ← s.fileclose wf
  .ok (s, none)

def sysPipe (s : System) (p : ProcIx) (fdarray : ℕ) : Except Panic (System × Option ℕ) := do
  let (s, files) ← s.pipealloc
  match files with
  | none => .ok (s, none)
  | some (rf, wf) =>
      match s.fdalloc p rf with
      | none => s.closeBoth rf wf
      | some (fd0, s) =>
          match s.fdalloc p wf with
          | none => (s.setFd (p, fd0) none).closeBoth rf wf
          | some (fd1, s) =>
              let pt := (s.kernel.procs p).pagetable
              if copyout pt fdarray 4 ∧ copyout pt (add64 fdarray 4) 4 then .ok (s, some 0)
              else ((s.setFd (p, fd0) none).setFd (p, fd1) none).closeBoth rf wf

/-! ### `kernel/proc.c` -/

/-- A call of the memory system. -/
def lift {α : Type} (s : System) (x : Except Panic (Kernel × α)) : Except Panic (System × α) := do
  let (k, a) ← x
  .ok ({ s with kernel := k }, a)

/-- The loop of `fork` over the descriptors, at one of them. -/
def dupFd (p np : ProcIx) (s : System) (fd : Fd) : Except Panic System :=
  match s.ofile (p, fd) with
  | none => .ok s
  | some f => do
      let s ← s.filedup f
      .ok (s.setFd (np, fd) (some f))

def fork (s : System) (p : ProcIx) : Except Panic (System × Option ℕ) := do
  let (s, np) ← s.lift (s.kernel.fork p)
  match np with
  | none => .ok (s, none)
  | some np => do
      let s ← (List.finRange 16).foldlM (dupFd p np) s
      .ok (s, some np)

/-- The loop of `exit` over the descriptors, at one of them. -/
def closeFd (p : ProcIx) (s : System) (fd : Fd) : Except Panic System :=
  match s.ofile (p, fd) with
  | none => .ok s
  | some f => do
      let s ← s.fileclose f
      .ok (s.setFd (p, fd) none)

def exit (s : System) (p : ProcIx) : Except Panic (System × Option ℕ) :=
  if p = Kernel.initproc then .error .initExiting
  else do
    let s ← (List.finRange 16).foldlM (closeFd p) s
    let k ← s.kernel.exit p
    .ok ({ s with kernel := k }, none)

/-! ### Calls that can be short of memory -/

/-- The system calls of processes without ring buffers. -/
inductive Call
  | fork (p : ProcIx)
  | exec (p : ProcIx) (path : Bool) (image : Option (List Kernel.Phdr)) (args : List Kernel.Arg)
  | sbrk (p : ProcIx) (n : Int32)
  | exit (p : ProcIx)
  | wait (p : ProcIx) (addr : ℕ)
  | pipe (p : ProcIx) (fdarray : ℕ)
  | dup (p : ProcIx) (fd : Int32)
  | open (p : ProcIx) (device readable writable : Bool)
  | close (p : ProcIx) (fd : Int32)

def syscall (s : System) : Call → Except Panic (System × Option ℕ)
  | .fork p => s.fork p
  | .exec p path image args => s.lift (s.kernel.sysExec p path image args)
  | .sbrk p n => do
      let (s, ok) ← s.lift (s.kernel.growproc p n)
      .ok (s, if ok then some 0 else none)
  | .exit p => s.exit p
  | .wait p addr => do
      let (s, j) ← s.lift (s.kernel.wait p addr)
      .ok (s, j.map Fin.val)
  | .pipe p fdarray => s.sysPipe p fdarray
  | .dup p fd => s.sysDup p fd
  | .open p device readable writable => s.sysOpen p device readable writable
  | .close p fd => s.sysClose p fd

/-- The system with another free list. -/
def setFree (s : System) (free : List ℕ) : System :=
  { s with kernel := { s.kernel with mem := { s.kernel.mem with free := free } } }

/-- The call with only the first `n` free pages to be had. -/
def withOnly (s : System) (n : ℕ) (e : Call) : Except Panic (System × Option ℕ) := do
  let (s', ret) ← (s.setFree (s.kernel.mem.free.take n)).syscall e
  .ok (s'.setFree (s'.kernel.mem.free ++ s.kernel.mem.free.drop n), ret)

/-- Who can make the call. -/
def Runs (s : System) : Call → Prop
  | .fork p | .exec p _ _ _ | .sbrk p _ | .wait p _ | .pipe p _ | .dup p _ | .open p _ _ _
  | .close p _ => s.kernel.Running p
  | .exit p => (s.kernel.procs p).state = .live

instance (s : System) : (e : Call) → Decidable (s.Runs e)
  | .fork p | .exec p _ _ _ | .sbrk p _ | .wait p _ | .pipe p _ | .dup p _ | .open p _ _ _
  | .close p _ => inferInstanceAs (Decidable (s.kernel.Running p))
  | .exit p => inferInstanceAs (Decidable ((s.kernel.procs p).state = .live))

/-- A system call that returns; any `kalloc` may have failed. -/
def Steps (s : System) (e : Call) (s' : System) : Prop :=
  s.Runs e ∧ ∃ n ret, s.withOnly n e = .ok (s', ret)

/-- The system as the first process starts. -/
def start (k : Kernel) : System where
  kernel := k
  ftable := fun _ => File.empty
  ofile := fun _ => none
  ends := fun _ => ⟨false, false⟩

end System

end Xv6Zig
