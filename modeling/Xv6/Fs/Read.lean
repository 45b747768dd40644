import Xv6.Fs.Syscall
import Xv6.Vm.Copy

/-!
# Reading a file into user memory

`readi` with a user destination (`user_dst = 1`), the `FD_INODE` branch of
`fileread` and `sys_read`.  The user pages of the calling process are an
argument and a result, since `Sys` does not keep them.  `piperead` is in
`Xv6.Pipe`; no system call of this model makes a pipe, and devices are not
modelled, so `fileread` gives `none` on those two branches.
-/

namespace Xv6

/-- The loop of `readi` with a user destination: `tot` bytes are copied so
far, and the next chunk starts at `off` in the file and at `dst` in user
memory.  A failed `copyout` makes the result `-1`. -/
def readLoopUser (ip : Fin NINODE) (n : Nat) :
    Nat → Nat → Nat → Nat → UserVm → FsM (Int × UserVm)
  | 0, _, _, tot, vm => return (tot, vm)
  | fuel + 1, off, dst, tot, vm => do
    if tot < n then
      if !(← bmap ip (off / BSIZE)) then return (tot, vm)
      let m := min (n - tot) (BSIZE - off % BSIZE)
      let data := (← slot ip).din.data
      let (vm, ok) := copyout vm m dst ((data.drop off).take m)
      if !ok then return (-1, vm)
      readLoopUser ip n fuel (off + m) (dst + m) (tot + m) vm
    else return (tot, vm)

/-- `readi(ip, 1, dst, off, n)`: the number of bytes copied out, or `-1`, and
the user pages after the copy.  `off + n` is computed in 32 bits. -/
def readiUser (ip : Fin NINODE) (dst off n : Nat) (vm : UserVm) : FsM (Int × UserVm) := do
  let size := (← slot ip).din.size
  if off > size ∨ (off + n) % 2 ^ 32 < off then return (0, vm)
  let n := if off + n > size then size - off else n
  readLoopUser ip n n off dst 0 vm

variable {np : Nat}

/-- `fileread(f, addr, n)` by a process whose user pages are `vm`: the result
and the pages after it, or `none` on the pipe and device branches. -/
def fileread (f : Fin NFILE) (addr : Nat) (n : Int) (vm : UserVm) :
    SysM np (Option (Int × UserVm)) := do
  let ff := (← get).file f
  if !ff.readable then return some (-1, vm)
  match ff.type with
  | .inode =>
    liftFs (ilock ff.ip)
    -- the `int n` is passed to `readi`'s `uint n`
    let (r, vm) ← liftFs (readiUser ff.ip addr ff.off (n % 2 ^ 32).toNat vm)
    if r > 0 then modify fun s => s.setFile f { s.file f with off := (s.file f).off + r.toNat }
    liftFs (iunlock ff.ip)
    return some (r, vm)
  | .pipe => return none
  | .device => return none
  | .none => throw "fileread"

/-- `sys_read(fd, addr, n)` by process `p`, whose user pages are `vm`. -/
def sysRead (p : Fin np) (fd : Int) (addr : Nat) (n : Int) (vm : UserVm) :
    SysM np (Option (Int × UserVm)) := do
  let pr := (← get).proc p
  if h : 0 ≤ fd ∧ fd < NOFILE then
    let some f := pr.ofile ⟨fd.toNat, toNat_lt_of_bounds h⟩ | return some (-1, vm)
    fileread f addr n vm
  else return some (-1, vm)

end Xv6
