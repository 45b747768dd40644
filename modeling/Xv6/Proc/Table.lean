import Xv6.Fs.Syscall
import Xv6.Pipe.Pipe

/-!
# Processes, open files and pipes

The process table of `kernel/proc.c` (`allocpid`, `allocproc`, `freeproc`,
`fork`, `reparent`, `exit`, `wait`, `kill`), the file table of
`kernel/file.c` (`filealloc`, `filedup`, `fileclose`), `pipealloc` and
`pipeclose` of `kernel/pipe.c`, and the system calls `open`, `pipe`, `dup`
and `close` of `kernel/sysfile.c`, over one kernel state.

A process keeps its state, `pid`, `parent`, `killed`, `xstate` and open
files; its memory, trapframe, name and working directory are left out.  A file
keeps its type, reference count, access and pipe; its inode is left out, so
`open` is given whether its path lookup succeeded and whether it found a
device, and the `iput` of a closed inode file is not modelled.  A pipe is an
`Xv6.Pipe` at the address `kalloc` gave it.

What fails only because memory ran out (`kalloc` in `allocproc` and
`pipealloc`, `proc_pagetable`, `uvmcopy`) or because a copy to user memory
failed is an argument of the call, so that a run can take either path.  Each
system call runs as one step: its lock sections do not interleave with another
call in a way these tables can see.  The one sleep of a call that is modelled
is `wait`'s, which ends the step and leaves the call to start over.  `nextpid`
is a signed `int`; its overflow is undefined behaviour in C, and the model does
not wrap it.
-/

namespace Xv6.Tables

/-- `enum procstate`. -/
inductive Procstate
  | unused
  | used
  | sleeping
  | runnable
  | running
  | zombie
deriving DecidableEq, Repr

/-- The fields of `struct proc` that this model keeps. -/
structure Proc where
  state : Procstate
  pid : Int
  parent : Option (Fin NPROC)
  killed : Bool
  xstate : Int
  ofile : Fin NOFILE → Option (Fin NFILE)

/-- The fields of `struct file` that this model keeps. -/
structure File where
  type : FileType
  ref : Int
  readable : Bool
  writable : Bool
  /-- `f->pipe`, the address of a pipe; meaningful for a `pipe` file. -/
  pipe : Nat
deriving DecidableEq, Repr

/-- The process table, the file table and the allocated pipes. -/
structure Kernel where
  proc : Fin NPROC → Proc
  file : Fin NFILE → File
  pipe : Nat → Option Pipe
  nextpid : Int
  initproc : Fin NPROC

namespace Kernel

def setProc (k : Kernel) (p : Fin NPROC) (pr : Proc) : Kernel :=
  { k with proc := Function.update k.proc p pr }

def setFile (k : Kernel) (f : Fin NFILE) (ff : File) : Kernel :=
  { k with file := Function.update k.file f ff }

def setPipe (k : Kernel) (a : Nat) (pi : Option Pipe) : Kernel :=
  { k with pipe := Function.update k.pipe a pi }

section Lemmas

variable (k : Kernel) (p q : Fin NPROC) (pr : Proc)

@[simp] theorem setProc_proc_self : (k.setProc p pr).proc p = pr := by
  simp [setProc]

@[simp] theorem setProc_proc_of_ne (h : q ≠ p) : (k.setProc p pr).proc q = k.proc q := by
  simp [setProc, Function.update_of_ne h]

@[simp] theorem setProc_setProc (pr' : Proc) : (k.setProc p pr).setProc p pr' = k.setProc p pr' := by
  simp [setProc]

@[simp] theorem setProc_nextpid : (k.setProc p pr).nextpid = k.nextpid := rfl

@[simp] theorem setProc_initproc : (k.setProc p pr).initproc = k.initproc := rfl

@[simp] theorem setProc_file : (k.setProc p pr).file = k.file := rfl

@[simp] theorem setProc_pipe : (k.setProc p pr).pipe = k.pipe := rfl

@[simp] theorem setFile_proc (f : Fin NFILE) (ff : File) : (k.setFile f ff).proc = k.proc := rfl

@[simp] theorem setFile_file_self (f : Fin NFILE) (ff : File) : (k.setFile f ff).file f = ff := by
  simp [setFile]

@[simp] theorem setFile_file_of_ne {f g : Fin NFILE} (ff : File) (h : g ≠ f) :
    (k.setFile f ff).file g = k.file g := by
  simp [setFile, Function.update_of_ne h]

@[simp] theorem setFile_pipe (f : Fin NFILE) (ff : File) : (k.setFile f ff).pipe = k.pipe := rfl

@[simp] theorem setFile_nextpid (f : Fin NFILE) (ff : File) : (k.setFile f ff).nextpid = k.nextpid :=
  rfl

@[simp] theorem setFile_initproc (f : Fin NFILE) (ff : File) :
    (k.setFile f ff).initproc = k.initproc := rfl

@[simp] theorem setPipe_proc (a : Nat) (pi : Option Pipe) : (k.setPipe a pi).proc = k.proc := rfl

@[simp] theorem setPipe_file (a : Nat) (pi : Option Pipe) : (k.setPipe a pi).file = k.file := rfl

end Lemmas

end Kernel

/-- Kernel code over the tables; an error is a panic. -/
abbrev KM := StateT Kernel (Except String)

def modifyProc (p : Fin NPROC) (f : Proc → Proc) : KM Unit :=
  modify fun k => k.setProc p (f (k.proc p))

def modifyFile (f : Fin NFILE) (g : File → File) : KM Unit :=
  modify fun k => k.setFile f (g (k.file f))

/-- `p->ofile[fd] = f`. -/
def setOfile (p : Fin NPROC) (fd : Fin NOFILE) (f : Option (Fin NFILE)) : KM Unit :=
  modifyProc p fun pr => { pr with ofile := Function.update pr.ofile fd f }

/-! ## Files and pipes -/

/-- `filealloc()`: the first file with no reference, given one. -/
def filealloc : KM (Option (Fin NFILE)) := do
  let k ← get
  match (List.finRange NFILE).find? fun f => (k.file f).ref = 0 with
  | none => return none
  | some f =>
    modifyFile f fun ff => { ff with ref := 1 }
    return some f

/-- `filedup(f)`. -/
def filedup (f : Fin NFILE) : KM Unit := do
  if ((← get).file f).ref < 1 then throw "filedup"
  modifyFile f fun ff => { ff with ref := ff.ref + 1 }

/-- `pipeclose(pi, writable)` for the pipe at address `a`: clear the end's
flag, and `kfree` the pipe once both ends are closed.  A pipe that is not
allocated would be a use after free in the source; the model stops there. -/
def pipeclose (a : Nat) (writable : Bool) : KM Unit := do
  let some pi := (← get).pipe a | throw "pipeclose: freed pipe"
  let pi := pi.close writable
  if !pi.readopen ∧ !pi.writeopen then modify fun k => k.setPipe a none
  else modify fun k => k.setPipe a (some pi)

/-- `fileclose(f)`. -/
def fileclose (f : Fin NFILE) : KM Unit := do
  let ff := (← get).file f
  if ff.ref < 1 then throw "fileclose"
  if ff.ref - 1 > 0 then
    modifyFile f fun ff => { ff with ref := ff.ref - 1 }
    return
  modifyFile f fun ff => { ff with ref := 0, type := .none }
  if ff.type = .pipe then pipeclose ff.pipe ff.writable

/-- `kalloc` fills a new page with junk. -/
def kallocJunk : Fin PIPESIZE → UInt8 := fun _ => 5

/-- `pipealloc(&f0, &f1)`, where `kalloc` returned the page at `kalloc`, or
failed: the read and the write file of a new pipe. -/
def pipealloc (kalloc : Option Nat) : KM (Option (Fin NFILE × Fin NFILE)) := do
  let some f0 ← filealloc | return none
  let some f1 ← filealloc | do
    fileclose f0
    return none
  let some a := kalloc | do
    fileclose f0
    fileclose f1
    return none
  modify fun k => k.setPipe a (some (Pipe.alloc kallocJunk))
  modifyFile f0 fun ff => { ff with type := .pipe, readable := true, writable := false, pipe := a }
  modifyFile f1 fun ff => { ff with type := .pipe, readable := false, writable := true, pipe := a }
  return some (f0, f1)

/-- `fdalloc(f)` for process `p`. -/
def fdalloc (p : Fin NPROC) (f : Fin NFILE) : KM (Option (Fin NOFILE)) := do
  let pr := (← get).proc p
  match (List.finRange NOFILE).find? fun fd => pr.ofile fd = none with
  | none => return none
  | some fd =>
    setOfile p fd (some f)
    return some fd

/-- `argfd` for process `p`: the descriptor and its file, if it is open. -/
def argfd (p : Fin NPROC) (fd : Int) : KM (Option (Fin NOFILE × Fin NFILE)) := do
  if h : 0 ≤ fd ∧ fd < NOFILE then
    let fd : Fin NOFILE := ⟨fd.toNat, toNat_lt_of_bounds h⟩
    match ((← get).proc p).ofile fd with
    | none => return none
    | some f => return some (fd, f)
  else return none

/-! ## File system calls -/

/-- `sys_open` by process `p`, where the lookup or creation of the path found
an inode (`some device`, whether it is a device) or failed (`none`). -/
def sysOpen (p : Fin NPROC) (found : Option Bool) (omode : Nat) : KM Int := do
  let some device := found | return -1
  let some f ← filealloc | return -1
  let some fd ← fdalloc p f | do
    fileclose f
    return -1
  modifyFile f fun ff =>
    { ff with type := if device then .device else .inode,
              readable := omode &&& O_WRONLY = 0,
              writable := omode &&& O_WRONLY ≠ 0 ∨ omode &&& O_RDWR ≠ 0 }
  return fd.val

/-- `sys_pipe` by process `p`, where `kalloc` returned `kalloc` and the copy
of the two descriptors to user memory succeeded or not. -/
def sysPipe (p : Fin NPROC) (kalloc : Option Nat) (copyoutOk : Bool) : KM Int := do
  let some (rf, wf) ← pipealloc kalloc | return -1
  let some fd0 ← fdalloc p rf | do
    fileclose rf
    fileclose wf
    return -1
  let some fd1 ← fdalloc p wf | do
    setOfile p fd0 none
    fileclose rf
    fileclose wf
    return -1
  if !copyoutOk then
    setOfile p fd0 none
    setOfile p fd1 none
    fileclose rf
    fileclose wf
    return -1
  return 0

/-- `sys_dup(fd)` by process `p`. -/
def sysDup (p : Fin NPROC) (fd : Int) : KM Int := do
  let some (_, f) ← argfd p fd | return -1
  let some fd ← fdalloc p f | return -1
  filedup f
  return fd.val

/-- `sys_close(fd)` by process `p`. -/
def sysClose (p : Fin NPROC) (fd : Int) : KM Int := do
  let some (fd, f) ← argfd p fd | return -1
  setOfile p fd none
  fileclose f
  return 0

/-! ## Processes -/

/-- `allocpid()`. -/
def allocpid : KM Int := do
  let k ← get
  set { k with nextpid := k.nextpid + 1 }
  return k.nextpid

/-- `freeproc(p)`: the fields it resets; the open files were closed by
`exit`. -/
def freeproc (p : Fin NPROC) : KM Unit :=
  modifyProc p fun pr =>
    { pr with pid := 0, parent := none, killed := false, xstate := 0, state := .unused }

/-- `allocproc()`, where the trapframe and page table allocations succeeded
or not: the first `UNUSED` slot, with a new `pid`, in state `USED`. -/
def allocproc (memOk : Bool) : KM (Option (Fin NPROC)) := do
  let k ← get
  match (List.finRange NPROC).find? fun q => (k.proc q).state = .unused with
  | none => return none
  | some q =>
    let pid ← allocpid
    modifyProc q fun pr => { pr with pid, state := .used }
    if !memOk then
      freeproc q
      return none
    return some q

/-- The loop of `fork` that gives the child `np` the open files of `p`. -/
def forkFiles (p np : Fin NPROC) : List (Fin NOFILE) → KM Unit
  | [] => return
  | i :: is => do
    if let some f := ((← get).proc p).ofile i then
      filedup f
      setOfile np i (some f)
    forkFiles p np is

/-- `fork()` by process `p`, where `allocproc`'s allocations and `uvmcopy`
succeeded or not. -/
def fork (p : Fin NPROC) (allocOk copyOk : Bool) : KM Int := do
  let some np ← allocproc allocOk | return -1
  if !copyOk then
    freeproc np
    return -1
  forkFiles p np (List.finRange NOFILE)
  let pid := ((← get).proc np).pid
  modifyProc np fun pr => { pr with parent := some p }
  modifyProc np fun pr => { pr with state := .runnable }
  return pid

/-- `wakeup(chan)` for the channel a process sleeping in `wait` sleeps on:
the process itself. -/
def wakeupProc (q : Fin NPROC) : KM Unit :=
  modifyProc q fun pr => if pr.state = .sleeping then { pr with state := .runnable } else pr

/-- The loop of `reparent(p)` over the slots `qs`. -/
def reparentLoop (p : Fin NPROC) : List (Fin NPROC) → KM Unit
  | [] => return
  | pp :: pps => do
    if ((← get).proc pp).parent = some p then
      let init := (← get).initproc
      modifyProc pp fun pr => { pr with parent := some init }
      wakeupProc init
    reparentLoop p pps

/-- `reparent(p)`: `p`'s children go to `initproc`. -/
def reparent (p : Fin NPROC) : KM Unit :=
  reparentLoop p (List.finRange NPROC)

/-- The loop of `exit` that closes the open files of `p`. -/
def closeFiles (p : Fin NPROC) : List (Fin NOFILE) → KM Unit
  | [] => return
  | fd :: fds => do
    if let some f := ((← get).proc p).ofile fd then
      fileclose f
      setOfile p fd none
    closeFiles p fds

/-- `exit(status)` by process `p`, up to its switch to the scheduler. -/
def exit (p : Fin NPROC) (status : Int) : KM Unit := do
  if p = (← get).initproc then throw "init exiting"
  closeFiles p (List.finRange NOFILE)
  reparent p
  if let some pp := ((← get).proc p).parent then wakeupProc pp
  modifyProc p fun pr => { pr with xstate := status, state := .zombie }

/-- `wait(addr)` by process `p`, where the copy of the child's `xstate` to
`addr` succeeded or not: the pid of the first `ZOMBIE` child, freed, or `-1`;
`none` when `p` has children, none of them a zombie, and goes to sleep. -/
def wait (p : Fin NPROC) (addr : Nat) (copyoutOk : Bool) : KM (Option Int) := do
  let k ← get
  let kids := (List.finRange NPROC).filter fun pp => (k.proc pp).parent = some p
  match kids.find? fun pp => (k.proc pp).state = .zombie with
  | some pp =>
    let pid := (k.proc pp).pid
    if addr ≠ 0 ∧ !copyoutOk then return some (-1)
    freeproc pp
    return some pid
  | none =>
    if kids = [] ∨ (k.proc p).killed then return some (-1)
    return none

/-- `kill(pid)`: mark the first slot whose `pid` matches, whatever its state. -/
def kill (pid : Int) : KM Int := do
  let k ← get
  match (List.finRange NPROC).find? fun q => (k.proc q).pid = pid with
  | none => return -1
  | some q =>
    modifyProc q fun pr =>
      { pr with killed := true, state := if pr.state = .sleeping then .runnable else pr.state }
    return 0

/-! ## The kernel as a transition system -/

/-- A system call of the model, with what decides its failure paths. -/
inductive Call
  | openFile (found : Option Bool) (omode : Nat)
  | pipe (kalloc : Option Nat) (copyoutOk : Bool)
  | dup (fd : Int)
  | close (fd : Int)
  | fork (allocOk copyOk : Bool)
  | exit (status : Int)
  | wait (addr : Nat) (copyoutOk : Bool)
  | kill (pid : Int)

/-- The system call `c` by process `p`: its result, or `none` if `p` sleeps. -/
def syscall (p : Fin NPROC) : Call → KM (Option Int)
  | .openFile found omode => some <$> sysOpen p found omode
  | .pipe kalloc ok => some <$> sysPipe p kalloc ok
  | .dup fd => some <$> sysDup p fd
  | .close fd => some <$> sysClose p fd
  | .fork allocOk copyOk => some <$> fork p allocOk copyOk
  | .exit status => do
    exit p status
    return some 0
  | .wait addr ok => wait p addr ok
  | .kill pid => some <$> kill pid

/-- What happens next: a system call by a running process, or a move of the
scheduler or of `sleep` and `wakeup` on a channel of some other call. -/
inductive Event
  | call (p : Fin NPROC) (c : Call)
  | run (p : Fin NPROC)
  | yield (p : Fin NPROC)
  | sleep (p : Fin NPROC)
  | wakeup (p : Fin NPROC)

/-- Whether the arguments of a call are ones the kernel can produce: `kalloc`
hands out a free page, so a new pipe never lands on a pipe in use. -/
def Call.possible (k : Kernel) : Call → Bool
  | .pipe (some a) _ => (k.pipe a).isNone
  | _ => true

/-- `p` in state `s` moves to state `t`. -/
def Kernel.move (k : Kernel) (p : Fin NPROC) (s t : Procstate) : Option Kernel :=
  if (k.proc p).state = s then some (k.setProc p { k.proc p with state := t }) else none

/-- One step; `none` when the event cannot happen, or panics. -/
def Kernel.step (k : Kernel) : Event → Option Kernel
  | .call p c =>
    if (k.proc p).state = .running ∧ c.possible k then
      match (syscall p c).run k with
      | .ok (some _, k') => some k'
      | .ok (none, k') => some (k'.setProc p { k'.proc p with state := .sleeping })
      | .error _ => none
    else none
  | .run p => k.move p .runnable .running
  | .yield p => k.move p .running .runnable
  | .sleep p => k.move p .running .sleeping
  | .wakeup p => k.move p .sleeping .runnable

/-- `step` as a transition relation. -/
def Kernel.Next (k : Kernel) (e : Event) (k' : Kernel) : Prop := k.step e = some k'

/-- An unused slot, as the zeroed table and `freeproc` leave it. -/
def Proc.unused : Proc :=
  { state := .unused, pid := 0, parent := none, killed := false, xstate := 0,
    ofile := fun _ => none }

/-- A file with no reference. -/
def File.free : File :=
  { type := .none, ref := 0, readable := false, writable := false, pipe := 0 }

/-- The first slot, where `userinit` puts `initproc`. -/
def slot0 : Fin NPROC := ⟨0, NPROC_pos⟩

/-- The second slot, the one the first `fork` after boot takes. -/
def slot1 : Fin NPROC := ⟨1, one_lt_NPROC⟩

/-- The tables after `userinit`: `initproc` in the first slot with `pid` 1,
runnable, every other slot unused, no open file and no pipe. -/
def Kernel.boot : Kernel where
  proc p := if p = slot0 then { Proc.unused with state := .runnable, pid := 1 } else Proc.unused
  file _ := File.free
  pipe _ := none
  nextpid := 2
  initproc := slot0

end Xv6.Tables
