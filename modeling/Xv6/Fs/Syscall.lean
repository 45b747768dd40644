import Xv6.Fs.Dir
import Xv6.Lib.Transition

/-!
# File-system system calls

`create`, `isdirempty` and the system calls `open`, `close`, `link`, `unlink`,
`mkdir`, `mknod` and `chdir` of `kernel/sysfile.c`, with `filealloc`,
`fileclose` and `fdalloc` of `kernel/file.c`, over a kernel of `n` processes.

A process is its working directory and its open-file table; `struct file`
keeps its fields.  Pipes are left out: no system call of this model makes one.
`begin_op` and `end_op` are left out too: the log's protocol is
`Xv6.LogSys`, and one system call here runs at a time, so the transactions do
not change what these functions compute.  A user string argument is the bytes
at its address; `argstr` keeps those before the NUL, and fails when there are
`MAXPATH` or more of them.
-/

namespace Xv6

/-- `struct file`'s type. -/
inductive FileType
  | none
  | pipe
  | inode
  | device
deriving DecidableEq, Repr

/-- `struct file`; `ip` is meaningful for `inode` and `device` files. -/
structure File where
  type : FileType
  ref : Int
  readable : Bool
  writable : Bool
  ip : Fin NINODE
  off : Nat
  major : Int
deriving DecidableEq, Repr

/-- The file-system part of `struct proc`. -/
structure Proc where
  cwd : Fin NINODE
  ofile : Fin NOFILE → Option (Fin NFILE)

/-- The kernel state the system calls read and write: the file system, the
file table `ftable` and the processes. -/
structure Sys (n : Nat) where
  fs : Fs
  file : Fin NFILE → File
  proc : Fin n → Proc

namespace Sys

variable {n : Nat}

def setFile (s : Sys n) (f : Fin NFILE) (ff : File) : Sys n :=
  { s with file := Function.update s.file f ff }

def setProc (s : Sys n) (p : Fin n) (pr : Proc) : Sys n :=
  { s with proc := Function.update s.proc p pr }

end Sys

/-- Kernel code over the whole state; an error is a panic. -/
abbrev SysM (n : Nat) := StateT (Sys n) (Except String)

variable {n : Nat}

/-- Run file-system code on the file system of the state. -/
def liftFs {α : Type} (m : FsM α) : SysM n α := fun s =>
  (m s.fs).map fun r => (r.1, { s with fs := r.2 })

/-- `argstr`: the bytes of a string argument before its NUL. -/
def argstr (arg : List UInt8) : Option (List UInt8) :=
  let path := arg.takeWhile (· ≠ 0)
  if path.length < MAXPATH then some path else none

/-- `create(path, type, major, minor)`: the inode of a new entry, locked, or
for a file an existing file or device of that name. -/
def create (cwd : Fin NINODE) (path : List UInt8) (type major minor : Int) :
    FsM (Option (Fin NINODE)) := do
  let (dp, name) ← nameiparent cwd path
  let some dp := dp | return none
  ilock dp
  if let some (ip, _) ← dirlookup dp name then
    iunlockput dp
    ilock ip
    let t := (← slot ip).din.type
    if type = T_FILE ∧ (t = T_FILE ∨ t = T_DEVICE) then return some ip
    iunlockput ip
    return none
  let some ip ← ialloc type | do
    iunlockput dp
    return none
  ilock ip
  modifyDin ip fun din => { din with major, minor, nlink := 1 }
  iupdate ip
  let inum := (← slot ip).inum
  -- `.` and `..`; no `ip->nlink++` for `.`, which would be a cycle
  let dots ← if type = T_DIR then do
      if (← dirlink ip [46] inum) < 0 then pure false
      else do
        let r ← dirlink ip [46, 46] (← slot dp).inum
        pure (decide (r ≥ 0))
    else pure true
  let linked ← if dots then do
      let r ← dirlink dp name inum
      pure (decide (r ≥ 0))
    else pure false
  if linked then
    if type = T_DIR then
      -- for the new `..`
      modifyDin dp fun din => { din with nlink := toShort (din.nlink + 1) }
      iupdate dp
    iunlockput dp
    return some ip
  -- fail: de-allocate ip
  modifyDin ip fun din => { din with nlink := 0 }
  iupdate ip
  iunlockput ip
  iunlockput dp
  return none

/-- The loop of `isdirempty` from offset `off`. -/
def isdiremptyLoop (dp : Fin NINODE) : Nat → Nat → FsM Bool
  | 0, _ => return true
  | fuel + 1, off => do
    if off < (← slot dp).din.size then
      let de ← readi dp off direntSize
      if de.length ≠ direntSize then throw "isdirempty: readi"
      if direntInum de ≠ 0 then return false
      isdiremptyLoop dp fuel (off + direntSize)
    else return true

/-- `isdirempty(dp)`: no used entry after the first two. -/
def isdirempty (dp : Fin NINODE) : FsM Bool := do
  isdiremptyLoop dp ((← slot dp).din.size + 1) (2 * direntSize)

/-- `sys_link`'s body after its arguments: link `new` to the inode of `old`. -/
def sysLink (cwd : Fin NINODE) (old new : List UInt8) : FsM Int := do
  let some ip ← namei cwd old | return -1
  ilock ip
  if (← slot ip).din.type = T_DIR then
    iunlockput ip
    return -1
  modifyDin ip fun din => { din with nlink := toShort (din.nlink + 1) }
  iupdate ip
  iunlock ip
  let (dp, name) ← nameiparent cwd new
  if let some dp := dp then
    ilock dp
    if (← dirlink dp name (← slot ip).inum) ≥ 0 then
      iunlockput dp
      iput ip
      return 0
    iunlockput dp
  -- bad: undo the link count
  ilock ip
  modifyDin ip fun din => { din with nlink := toShort (din.nlink - 1) }
  iupdate ip
  iunlockput ip
  return -1

/-- `sys_unlink`'s body after its argument. -/
def sysUnlink (cwd : Fin NINODE) (path : List UInt8) : FsM Int := do
  let (dp, name) ← nameiparent cwd path
  let some dp := dp | return -1
  ilock dp
  -- `.` and `..` cannot be unlinked
  if namecmp name [46] ≠ 0 ∧ namecmp name [46, 46] ≠ 0 then
    if let some (ip, off) ← dirlookup dp name then
      ilock ip
      if (← slot ip).din.nlink < 1 then throw "unlink: nlink < 1"
      let full ← if (← slot ip).din.type = T_DIR then do pure !(← isdirempty ip)
        else pure false
      if full then
        iunlockput ip
      else
        if (← writei dp (List.replicate direntSize 0) off direntSize) ≠ direntSize then
          throw "unlink: writei"
        if (← slot ip).din.type = T_DIR then
          modifyDin dp fun din => { din with nlink := toShort (din.nlink - 1) }
          iupdate dp
        iunlockput dp
        modifyDin ip fun din => { din with nlink := toShort (din.nlink - 1) }
        iupdate ip
        iunlockput ip
        return 0
  -- bad
  iunlockput dp
  return -1

/-- `filealloc()`: the first file with no reference, given one. -/
def filealloc : SysM n (Option (Fin NFILE)) := do
  let s ← get
  match (List.finRange NFILE).find? fun f => (s.file f).ref = 0 with
  | none => return none
  | some f =>
    set (s.setFile f { s.file f with ref := 1 })
    return some f

/-- `fdalloc(f)` for process `p`. -/
def fdalloc (p : Fin n) (f : Fin NFILE) : SysM n (Option (Fin NOFILE)) := do
  let s ← get
  let pr := s.proc p
  match (List.finRange NOFILE).find? fun fd => pr.ofile fd = none with
  | none => return none
  | some fd =>
    set (s.setProc p { pr with ofile := Function.update pr.ofile fd (some f) })
    return some fd

/-- `fileclose(f)`. -/
def fileclose (f : Fin NFILE) : SysM n Unit := do
  let s ← get
  let ff := s.file f
  if ff.ref < 1 then throw "fileclose"
  if ff.ref - 1 > 0 then
    set (s.setFile f { ff with ref := ff.ref - 1 })
    return
  set (s.setFile f { ff with ref := 0, type := .none })
  if ff.type = .inode ∨ ff.type = .device then liftFs (iput ff.ip)

/-- The working directory of process `p`. -/
def cwdOf (p : Fin n) : SysM n (Fin NINODE) := do
  return ((← get).proc p).cwd

/-- The inode `sys_open` opens, locked: a file made or found by `create`
under `O_CREATE`, else the inode of the path, which must not be a directory
unless it is opened read-only. -/
def openInode (cwd : Fin NINODE) (path : List UInt8) (omode : Nat) :
    FsM (Option (Fin NINODE)) := do
  if omode &&& O_CREATE ≠ 0 then return ← create cwd path T_FILE 0 0
  let some ip ← namei cwd path | return none
  ilock ip
  if (← slot ip).din.type = T_DIR ∧ omode ≠ O_RDONLY then
    iunlockput ip
    return none
  return some ip

/-- The fields `sys_open` sets in the file `ff` it opens on inode `ip`. -/
def File.opened (ff : File) (ip : Fin NINODE) (din : Dinode) (omode : Nat) : File :=
  { ff with
    type := if din.type = T_DEVICE then .device else .inode
    major := if din.type = T_DEVICE then din.major else ff.major
    off := if din.type = T_DEVICE then ff.off else 0
    ip
    readable := omode &&& O_WRONLY = 0
    writable := omode &&& O_WRONLY ≠ 0 ∨ omode &&& O_RDWR ≠ 0 }

/-- `sys_open(path, omode)` by process `p`; `omode` is the bit pattern of the
`int` argument. -/
def sysOpen (p : Fin n) (arg : List UInt8) (omode : Nat) : SysM n Int := do
  let some path := argstr arg | return -1
  let some ip ← liftFs (openInode (← cwdOf p) path omode) | return -1
  let din := (← liftFs (slot ip)).din
  if din.type = T_DEVICE ∧ (din.major < 0 ∨ din.major ≥ NDEV) then
    liftFs (iunlockput ip)
    return -1
  let some f ← filealloc | do
    liftFs (iunlockput ip)
    return -1
  let some fd ← fdalloc p f | do
    fileclose f
    liftFs (iunlockput ip)
    return -1
  modify fun s => s.setFile f ((s.file f).opened ip din omode)
  if omode &&& O_TRUNC ≠ 0 ∧ din.type = T_FILE then liftFs (itrunc ip)
  liftFs (iunlock ip)
  return (fd.val : Int)

/-- A descriptor in range is an index of the descriptor table. -/
theorem toNat_lt_of_bounds {fd : Int} {n : Nat} (h : 0 ≤ fd ∧ fd < n) : fd.toNat < n := by
  omega

/-- `sys_close(fd)` by process `p`. -/
def sysClose (p : Fin n) (fd : Int) : SysM n Int := do
  let s ← get
  let pr := s.proc p
  if h : 0 ≤ fd ∧ fd < NOFILE then
    let fd : Fin NOFILE := ⟨fd.toNat, toNat_lt_of_bounds h⟩
    let some f := pr.ofile fd | return -1
    set (s.setProc p { pr with ofile := Function.update pr.ofile fd none })
    fileclose f
    return 0
  return -1

/-- `sys_chdir(path)` by process `p`. -/
def sysChdir (p : Fin n) (arg : List UInt8) : SysM n Int := do
  let some path := argstr arg | return -1
  let cwd ← cwdOf p
  let some ip ← liftFs (namei cwd path) | return -1
  liftFs (ilock ip)
  if (← liftFs (slot ip)).din.type ≠ T_DIR then
    liftFs (iunlockput ip)
    return -1
  liftFs (iunlock ip)
  liftFs (iput cwd)
  modify fun s => s.setProc p { s.proc p with cwd := ip }
  return 0

/-- A system call of the model, with its arguments. -/
inductive Call
  | openFile (path : List UInt8) (omode : Nat)
  | close (fd : Int)
  | link (old new : List UInt8)
  | unlink (path : List UInt8)
  | mkdir (path : List UInt8)
  | mknod (path : List UInt8) (major minor : Int)
  | chdir (path : List UInt8)

/-- The system call `c` made by process `p`, with its result. -/
def syscall (p : Fin n) : Call → SysM n Int
  | .openFile path omode => sysOpen p path omode
  | .close fd => sysClose p fd
  | .link old new => do
    let (some old, some new) := (argstr old, argstr new) | return -1
    liftFs (sysLink (← cwdOf p) old new)
  | .unlink path => do
    let some path := argstr path | return -1
    liftFs (sysUnlink (← cwdOf p) path)
  | .mkdir path => do
    let some path := argstr path | return -1
    let some ip ← liftFs (create (← cwdOf p) path T_DIR 0 0) | return -1
    liftFs (iunlockput ip)
    return 0
  | .mknod path major minor => do
    let some path := argstr path | return -1
    let some ip ← liftFs (create (← cwdOf p) path T_DEVICE (toShort major) (toShort minor)) |
      return -1
    liftFs (iunlockput ip)
    return 0
  | .chdir path => sysChdir p path

namespace Sys

/-- One system call that returns; a panic stops the kernel and is no step. -/
def Next (s : Sys n) (e : Fin n × Call) (s' : Sys n) : Prop :=
  ∃ r, (syscall e.1 e.2).run s = .ok (r, s')

/-- `Next` as a function, for running a sequence of calls. -/
def step (s : Sys n) (e : Fin n × Call) : Option (Sys n) :=
  match (syscall e.1 e.2).run s with
  | .ok (_, s') => some s'
  | .error _ => none

theorem next_of_step {s s' : Sys n} {e : Fin n × Call} (h : s.step e = some s') :
    s.Next e s' := by
  unfold step at h
  split at h
  · cases h
    exact ⟨_, ‹_›⟩
  · cases h

end Sys

/-! ## The image and the kernel at boot -/

/-- The first slot of the inode table. -/
def rootSlot : Fin NINODE := ⟨0, by decide⟩

def Inode.free : Inode := { inum := 0, ref := 0, valid := false, din := Dinode.alloc 0 }

def File.free : File :=
  { type := .none, ref := 0, readable := false, writable := false, ip := rootSlot,
    off := 0, major := 0 }

/-- The root directory as `mkfs` writes it: `.` and `..` name the root, and
the directory is padded with free entries to a whole block. -/
def mkfsRoot : Dinode :=
  { type := T_DIR, major := 0, minor := 0, nlink := 1,
    data := dirent ROOTINO [46] ++ dirent ROOTINO [46, 46] ++
      List.replicate (BSIZE - 2 * direntSize) 0,
    mapped := [0], indirect := false }

/-- The image `mkfs` lays out when it is given no user files: `ninodes`
inodes of which only the root is allocated, and `nfree` free data blocks. -/
def mkfsImage (ninodes nfree : Nat) : Fs where
  ninodes := ninodes
  dinode inum := if inum = ROOTINO then mkfsRoot else Dinode.alloc 0
  nfree := nfree
  inode _ := Inode.free

/-- The kernel once `userinit` and `n - 1` forks have run on the file system
`fs`: every process has the root as its working directory, held in the first
slot of the inode table, and no open file. -/
def Sys.boot (fs : Fs) : Sys n where
  fs := fs.setInode rootSlot { Inode.free with inum := ROOTINO, ref := n }
  file _ := File.free
  proc _ := { cwd := rootSlot, ofile := fun _ => none }

end Xv6
