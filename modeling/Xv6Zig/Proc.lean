/-
Xv6Zig/Proc.lean

Processes (`kernel/proc.c`, `kernel/exec.c`) and the system calls that take
part in memory management, as the events of a run.

A system call runs to its end before the next one starts.  What a call finds
in user memory and on disk is an argument of its event: the strings and
addresses `argstr`, `fetchaddr` and `copyin` read, the program headers of the
file `exec` opens and how far its segments can be read.  `kill`, `sleep` and
the scheduler leave memory alone; a process that is killed or faults calls
`exit`.

`Runs` says who can make a call.  A process whose size is 0 has no page it
could execute a call from, all it can do is fault and exit.
-/
import Xv6Zig.Ringbuf
import Xv6Zig.Lib.Run

namespace Xv6Zig

namespace Kernel

/-! ### Page tables of processes -/

/-- `PTE_R | PTE_X`, of the trampoline. -/
def trampolinePerm : Perm := ⟨true, false, true, false, Perm.readExec⟩

/-- `PTE_R | PTE_W`, of the trapframe. -/
def trapframePerm : Perm := ⟨true, true, false, false, Perm.readWrite⟩

/-- `pagetable == 0`. -/
def isNull : PageTable → Bool
  | .absent => true
  | .node _ _ => false

/-- `proc_pagetable`; absent when there is no memory. -/
def procPagetable (m : Kmem) (trampoline trapframe : ℕ) : Except Panic (Kmem × PageTable) :=
  match uvmcreate m with
  | none => .ok (m, .absent)
  | some (pt, m) => do
      let (m, pt, ok) ← mappages m pt trampolineVA pgSize trampoline trampolinePerm
      if ok then do
        let (m, pt, ok) ← mappages m pt trapframeVA pgSize trapframe trapframePerm
        if ok then .ok (m, pt)
        else do
          let (m, pt) ← uvmunmap m pt trampolineVA 1 false
          let m ← uvmfree m pt 0
          .ok (m, .absent)
      else do
        let m ← uvmfree m pt 0
        .ok (m, .absent)

/-- `proc_freepagetable`. -/
def procFreepagetable (k : Kernel) (pt : PageTable) (sz : ℕ) : Except Panic Kernel := do
  let (m, pt') ← uvmunmap k.mem pt trampolineVA 1 false
  let (m, pt') ← uvmunmap m pt' trapframeVA 1 false
  let m ← uvmfree m pt' sz
  .ok { k with
    mem := m
    teardowns := k.teardowns ++ [⟨pt, sz, k.mem.free, m.free⟩] }

/-! ### Process slots -/

def freeproc (k : Kernel) (p : ProcIx) : Except Panic Kernel := do
  let k ← (if 0 < (k.procs p).ownedRingbufs then k.ringbufDisownAll p else .ok k)
  let q := k.procs p
  let m ← (match q.trapframe with
    | some pa => k.mem.kfree pa
    | none => .ok k.mem)
  let k := { k with mem := m }
  let k ← (if isNull q.pagetable then .ok k else k.procFreepagetable q.pagetable q.sz)
  .ok (k.setProc p Proc.empty)

/-- `allocproc`: a slot with a page table and no user memory. -/
def allocproc (k : Kernel) : Except Panic (Kernel × Option ProcIx) :=
  match (List.finRange nProc).find? fun p => (k.procs p).state = .unused with
  | none => .ok (k, none)
  | some p =>
      let q := { k.procs p with state := .used }
      match k.mem.allocPage with
      | none => do
          let k ← (k.setProc p { q with trapframe := none }).freeproc p
          .ok (k, none)
      | some (trapframe, m) => do
          let (m, pt) ← procPagetable m k.trampoline trapframe
          let k := { k with mem := m }.setProc p
            { q with trapframe := some trapframe, pagetable := pt }
          if isNull pt then do
            let k ← k.freeproc p
            .ok (k, none)
          else .ok (k, some p)

/-- `initproc`, the first slot. -/
def initproc : ProcIx := 0

/-- The kernel after `kinit` and `procinit`. -/
def boot (kend trampoline : ℕ) (free : List ℕ) : Kernel where
  mem := ⟨kend, free⟩
  procs := fun _ => Proc.empty
  ringbufs := fun _ => Ringbuf.empty
  pipes := []
  trampoline := trampoline
  teardowns := []

/-- `PTE_W | PTE_R | PTE_X | PTE_U`, of `initcode`. -/
def initcodePerm : Perm := ⟨true, true, true, true, rfl⟩

/-- `userinit`; `none` when there is no memory for the first process. -/
def userinit (k : Kernel) : Except Panic (Option Kernel) := do
  let (k, p) ← k.allocproc
  match p with
  | none => .ok none
  | some p =>
      match k.mem.allocPage with
      | none => .ok none
      | some (mem, m) => do
          let q := k.procs p
          let (m, pt, ok) ← mappages m q.pagetable 0 pgSize mem initcodePerm
          if ok then
            .ok (some ({ k with mem := m }.setProc p
              { q with pagetable := pt, sz := pgSize, state := .live }))
          else .ok none

/-- `growproc`; `false` stands for -1. -/
def growproc (k : Kernel) (p : ProcIx) (n : Int32) : Except Panic (Kernel × Bool) :=
  let q := k.procs p
  let newsz := ((q.sz + n.toInt) % 2 ^ 64).toNat
  if 0 < n.toInt then do
    let (m, pt, sz) ← uvmalloc k.mem q.pagetable q.sz newsz true false
    if sz = 0 then .ok ({ k with mem := m }.setProc p { q with pagetable := pt }, false)
    else .ok ({ k with mem := m }.setProc p { q with pagetable := pt, sz := sz }, true)
  else if n.toInt < 0 then do
    let (m, pt, sz) ← uvmdealloc k.mem q.pagetable q.sz newsz
    .ok ({ k with mem := m }.setProc p { q with pagetable := pt, sz := sz }, true)
  else .ok (k, true)

/-- `fork`; the child's slot, or `none` for -1. -/
def fork (k : Kernel) (p : ProcIx) : Except Panic (Kernel × Option ProcIx) := do
  let (k, np) ← k.allocproc
  match np with
  | none => .ok (k, none)
  | some np => do
      let (m, pt, ok) ← uvmcopy k.mem (k.procs p).pagetable (k.procs np).pagetable (k.procs p).sz
      let q := { k.procs np with pagetable := pt }
      if ok then
        .ok ({ k with mem := m }.setProc np
          { q with sz := (k.procs p).sz, parent := some p, state := .live }, some np)
      else do
        let k ← ({ k with mem := m }.setProc np q).freeproc np
        .ok (k, none)

/-- `reparent`. -/
def reparent (k : Kernel) (p : ProcIx) : Kernel :=
  { k with
    procs := fun j =>
      if (k.procs j).parent = some p then { k.procs j with parent := some initproc }
      else k.procs j }

def exit (k : Kernel) (p : ProcIx) : Except Panic Kernel :=
  if p = initproc then .error .initExiting
  else
    let k := k.reparent p
    .ok (k.setProc p { k.procs p with state := .zombie })

/-- `wait`; the child that was reaped.  A call that goes to sleep is one that
has not been made yet. -/
def wait (k : Kernel) (p : ProcIx) (addr : ℕ) : Except Panic (Kernel × Option ProcIx) :=
  match (List.finRange nProc).find? fun j =>
      (k.procs j).parent = some p ∧ (k.procs j).state = .zombie with
  | none => .ok (k, none)
  | some j =>
      if addr ≠ 0 ∧ ¬ copyout (k.procs p).pagetable addr 4 then .ok (k, none)
      else do
        let k ← k.freeproc j
        .ok (k, some j)

/-! ### `exec` -/

/-- A program header as `exec` finds it; `reads` is how many pages of the
segment `readi` can deliver. -/
inductive Phdr
  | unreadable
  | other
  | load (vaddr memsz filesz : ℕ) (w x : Bool) (reads : ℕ)

/-- The loop of `loadseg` over `n` pages.  A file has far less than 2^20 pages,
so `readi` fails before the counter of the source's loop wraps around. -/
def loadLoop (pt : PageTable) : ℕ → ℕ → ℕ → Except Panic Bool
  | 0, _, _ => .ok true
  | n + 1, va, reads =>
      match walkaddr pt va with
      | none => .error .loadseg
      | some _ =>
          match reads with
          | 0 => .ok false
          | reads + 1 => loadLoop pt n (va + pgSize) reads

/-- `loadseg`, whose size is a `uint`; `false` stands for -1. -/
def loadseg (pt : PageTable) (va sz reads : ℕ) : Except Panic Bool :=
  loadLoop pt (npages (sz % 2 ^ 32)) va reads

/-- The loop of `exec` over the program headers; the last components are the
size and whether all could be loaded. -/
def loadProgram : List Phdr → Kmem → PageTable → ℕ → Except Panic (Kmem × PageTable × ℕ × Bool)
  | [], m, pt, sz => .ok (m, pt, sz, true)
  | .unreadable :: _, m, pt, sz => .ok (m, pt, sz, false)
  | .other :: phs, m, pt, sz => loadProgram phs m pt sz
  | .load vaddr memsz filesz w x reads :: phs, m, pt, sz =>
      if memsz < filesz then .ok (m, pt, sz, false)
      else if add64 vaddr memsz < vaddr then .ok (m, pt, sz, false)
      else if vaddr % pgSize ≠ 0 then .ok (m, pt, sz, false)
      else do
        let (m, pt, sz1) ← uvmalloc m pt sz (add64 vaddr memsz) w x
        if sz1 = 0 then .ok (m, pt, sz, false)
        else do
          let ok ← loadseg pt vaddr filesz reads
          if ok then loadProgram phs m pt sz1 else .ok (m, pt, sz1, false)

/-- The loop of `exec` over the arguments, given by their lengths; `argc` and
the stack pointer, or `none` when they do not fit. -/
def pushArgs (pt : PageTable) (stackbase : ℕ) : List ℕ → ℕ → ℕ → Option (ℕ × ℕ)
  | [], argc, sp => some (argc, sp)
  | len :: argv, argc, sp =>
      if maxArg ≤ argc then none
      else
        let sp := sub64 sp (len + 1)
        let sp := sp - sp % 16
        if sp < stackbase then none
        else if copyout pt sp (len + 1) then pushArgs pt stackbase argv (argc + 1) sp
        else none

/-- The arguments and the array of pointers to them; `argc`. -/
def pushStack (pt : PageTable) (sz : ℕ) (argv : List ℕ) : Option ℕ := do
  let stackbase := sz - pgSize
  let (argc, sp) ← pushArgs pt stackbase argv 0 sz
  let sp := sub64 sp ((argc + 1) * 8)
  let sp := sp - sp % 16
  if sp < stackbase then none
  else if copyout pt sp ((argc + 1) * 8) then some argc
  else none

/-- `exec` between `proc_pagetable` and the commit: the new image, its size,
and `argc` unless it goes to `bad`. -/
def buildImage (phs : List Phdr) (argv : List ℕ) (m : Kmem) (pt : PageTable) :
    Except Panic (Kmem × PageTable × ℕ × Option ℕ) := do
  let (m, pt, sz, ok) ← loadProgram phs m pt 0
  if ok then do
    let sz := pgRoundUp sz
    let (m, pt, sz1) ← uvmalloc m pt sz (sz + 2 * pgSize) true false
    if sz1 = 0 then .ok (m, pt, sz, none)
    else do
      let pt ← uvmclear pt (sz1 - 2 * pgSize)
      .ok (m, pt, sz1, pushStack pt sz1 argv)
  else .ok (m, pt, sz, none)

/-- `exec` of a file with the given program headers, `none` when there is no
file with an ELF header; `argc`, or `none` for -1. -/
def exec (k : Kernel) (p : ProcIx) (image : Option (List Phdr)) (argv : List ℕ) :
    Except Panic (Kernel × Option ℕ) :=
  match image with
  | none => .ok (k, none)
  | some phs => do
      let q := k.procs p
      let (m, pt) ← procPagetable k.mem k.trampoline (intFromPtr q.trapframe)
      if isNull pt then .ok ({ k with mem := m }, none)
      else do
        let (m, pt, sz, argc) ← buildImage phs argv m pt
        let k := { k with mem := m }
        match argc with
        | none => do
            let k ← k.procFreepagetable pt sz
            .ok (k, none)
        | some argc => do
            let k := k.setProc p { q with pagetable := pt, sz := sz }
            let k ← k.procFreepagetable q.pagetable q.sz
            .ok (k, some argc)

/-- An element of the user's `argv`: its address cannot be read, or what
`fetchstr` makes of the string. -/
inductive Arg
  | badAddr
  | str (len : Option ℕ)

/-- The loop of `sys_exec`: the pages taken, and the lengths of the strings
unless it goes to `bad`.  `argv[i]` is null where the list ends. -/
def fetchArgs : List Arg → ℕ → Kmem → Kmem × List ℕ × Option (List ℕ)
  | args, i, m =>
      if maxArg ≤ i then (m, [], none)
      else match args with
        | [] => (m, [], some [])
        | .badAddr :: _ => (m, [], none)
        | .str len :: args =>
            match m.allocPage with
            | none => (m, [], none)
            | some (pa, m) =>
                match len with
                | none => (m, [pa], none)
                | some len =>
                    let (m, pas, lens) := fetchArgs args (i + 1) m
                    (m, pa :: pas, lens.map (len :: ·))

/-- `sys_exec`. -/
def sysExec (k : Kernel) (p : ProcIx) (path : Bool) (image : Option (List Phdr))
    (args : List Arg) : Except Panic (Kernel × Option ℕ) :=
  if path then do
    let (m, pas, argv) := fetchArgs args 0 k.mem
    let k := { k with mem := m }
    let (k, ret) ← (match argv with
      | none => .ok (k, none)
      | some argv => k.exec p image argv)
    let m ← pas.foldlM Kmem.kfree k.mem
    .ok ({ k with mem := m }, ret)
  else .ok (k, none)

/-! ### Pipes -/

/-- The page of `pipealloc`. -/
def pipealloc (k : Kernel) : Kernel × Bool :=
  match k.mem.allocPage with
  | none => (k, false)
  | some (pa, m) => ({ k with mem := m, pipes := pa :: k.pipes }, true)

/-- `pipeclose` of the second end. -/
def pipeclose (k : Kernel) (pa : ℕ) : Except Panic Kernel := do
  let m ← k.mem.kfree pa
  .ok { k with mem := m, pipes := k.pipes.erase pa }

/-! ### Runs -/

/-- The system calls and their arguments. -/
inductive Ev
  | ringbuf (p : ProcIx) (name : Option CStr) (op : Int32) (addr vaddr : ℕ)
  | sbrk (p : ProcIx) (n : Int32)
  | fork (p : ProcIx)
  | exit (p : ProcIx)
  | wait (p : ProcIx) (addr : ℕ)
  | exec (p : ProcIx) (path : Bool) (image : Option (List Phdr)) (args : List Arg)
  | pipe (p : ProcIx)
  | pipeclose (p : ProcIx) (pa : ℕ)

def syscall (k : Kernel) : Ev → Except Panic Kernel
  | .ringbuf p name op addr vaddr => do
      let (k, _) ← k.sysRingbuf p name op addr vaddr
      .ok k
  | .sbrk p n => do
      let (k, _) ← k.growproc p n
      .ok k
  | .fork p => do
      let (k, _) ← k.fork p
      .ok k
  | .exit p => k.exit p
  | .wait p addr => do
      let (k, _) ← k.wait p addr
      .ok k
  | .exec p path image args => do
      let (k, _) ← k.sysExec p path image args
      .ok k
  | .pipe _ => .ok k.pipealloc.1
  | .pipeclose _ pa => k.pipeclose pa

/-- The process can execute a system call. -/
def Running (k : Kernel) (p : ProcIx) : Prop :=
  (k.procs p).state = .live ∧ 0 < (k.procs p).sz

instance (k : Kernel) (p : ProcIx) : Decidable (k.Running p) :=
  inferInstanceAs (Decidable (_ ∧ _))

/-- Who can make the call.  `exit` closes the process's pipes, too. -/
def Runs (k : Kernel) : Ev → Prop
  | .ringbuf p _ _ _ _ | .sbrk p _ | .fork p | .wait p _ | .exec p _ _ _ | .pipe p => k.Running p
  | .exit p => (k.procs p).state = .live
  | .pipeclose p pa => (k.procs p).state = .live ∧ pa ∈ k.pipes

instance (k : Kernel) : (e : Ev) → Decidable (k.Runs e)
  | .ringbuf p _ _ _ _ | .sbrk p _ | .fork p | .wait p _ | .exec p _ _ _ | .pipe p =>
      inferInstanceAs (Decidable (k.Running p))
  | .exit p => inferInstanceAs (Decidable ((k.procs p).state = .live))
  | .pipeclose p pa => inferInstanceAs (Decidable ((k.procs p).state = .live ∧ pa ∈ k.pipes))

/-- A system call that returns. -/
def Steps (k : Kernel) (e : Ev) (k' : Kernel) : Prop :=
  k.Runs e ∧ k.syscall e = .ok k'

/-- The kernel as the first process starts, with any pages to hand out. -/
structure Initial (k₀ : Kernel) : Prop where
  started : ∃ kend trampoline free, trampoline < kend ∧ free.Nodup ∧
    (∀ pa ∈ free, ValidPage kend pa) ∧ (boot kend trampoline free).userinit = .ok (some k₀)

/-- The state `k` is reached from an initial one. -/
def Reachable (k : Kernel) : Prop :=
  ∃ k₀ tr, Initial k₀ ∧ Lib.Run Steps k₀ tr k

/-- The step as a function. -/
def next (k : Kernel) (e : Ev) : Option Kernel :=
  if k.Runs e then (k.syscall e).toOption else none

theorem steps_of_next {k k' : Kernel} {e : Ev} (h : k.next e = some k') : k.Steps e k' := by
  unfold next at h
  split_ifs at h with hr
  rcases hs : k.syscall e with x | k₁
  · rw [hs] at h
    cases h
  · rw [hs] at h
    cases h
    exact ⟨hr, hs⟩

end Kernel

end Xv6Zig
