import Xv6.Fs.Inode
import Xv6.Lib.CString

/-!
# Directories and path names

`namecmp`, `dirlookup`, `dirlink`, `skipelem` and `namex` of `kernel/fs.c`.
A directory is a file of 16-byte `struct dirent`s: a little-endian `ushort`
inode number, `0` for a free entry, then `DIRSIZ` name bytes, NUL-padded when
the name is shorter.  The loops of the source scan the directory with `readi`;
each runs on a fuel argument larger than the number of its iterations.
-/

namespace Xv6

open CString

/-- `sizeof(struct dirent)`. -/
@[simp] def direntSize : Nat := 2 + DIRSIZ

/-- The byte `'/'`. -/
def slash : UInt8 := 47

/-- `namecmp(s, t)`. -/
def namecmp (s t : List UInt8) : Int := strncmp s t DIRSIZ

/-- The bytes of a `struct dirent` after `de.inum = inum` (a `ushort`) and
`strncpy(de.name, name, DIRSIZ)`. -/
def dirent (inum : Nat) (name : List UInt8) : List UInt8 :=
  [UInt8.ofNat inum, UInt8.ofNat (inum / 256)] ++ strncpy name DIRSIZ

/-- `de.inum` of the dirent read into `de`. -/
def direntInum (de : List UInt8) : Nat :=
  (de.getD 0 0).toNat + 256 * (de.getD 1 0).toNat

/-- `de.name` of the dirent read into `de`. -/
def direntName (de : List UInt8) : List UInt8 := de.drop 2

/-- The loop of `dirlookup` from offset `off`: the first used entry whose name
matches, as a fresh reference to its inode and the entry's offset. -/
def dirlookupLoop (dp : Fin NINODE) (name : List UInt8) :
    Nat → Nat → FsM (Option (Fin NINODE × Nat))
  | 0, _ => return none
  | fuel + 1, off => do
    if off < (← slot dp).din.size then
      let de ← readi dp off direntSize
      if de.length ≠ direntSize then throw "dirlookup read"
      -- a free entry (`de.inum == 0`) is skipped
      if direntInum de ≠ 0 ∧ namecmp name (direntName de) = 0 then
        return some (← iget (direntInum de), off)
      dirlookupLoop dp name fuel (off + direntSize)
    else return none

/-- `dirlookup(dp, name, &off)`. -/
def dirlookup (dp : Fin NINODE) (name : List UInt8) : FsM (Option (Fin NINODE × Nat)) := do
  let din := (← slot dp).din
  if din.type ≠ T_DIR then throw "dirlookup not DIR"
  dirlookupLoop dp name (din.size + 1) 0

/-- The loop of `dirlink` from offset `off`: the offset of the first free
entry, or the size of the directory. -/
def dirlinkLoop (dp : Fin NINODE) : Nat → Nat → FsM Nat
  | 0, off => return off
  | fuel + 1, off => do
    if off < (← slot dp).din.size then
      let de ← readi dp off direntSize
      if de.length ≠ direntSize then throw "dirlink read"
      if direntInum de = 0 then return off
      dirlinkLoop dp fuel (off + direntSize)
    else return off

/-- `dirlink(dp, name, inum)`: `-1` if the name is present or the entry cannot
be written. -/
def dirlink (dp : Fin NINODE) (name : List UInt8) (inum : Nat) : FsM Int := do
  match ← dirlookup dp name with
  | some (ip, _) =>
    iput ip
    return -1
  | none =>
    let off ← dirlinkLoop dp ((← slot dp).din.size + 1) 0
    if (← writei dp (dirent inum name) off direntSize) ≠ direntSize then return -1
    return 0

/-- `skipelem(path, name)`: the rest of the path after the next element, and
the element cut to `DIRSIZ` bytes as it is left in `name`; `none` when no
element is left. -/
def skipelem (path : List UInt8) : Option (List UInt8 × List UInt8) :=
  let path := path.dropWhile (· = slash)
  if path = [] then none
  else some ((path.dropWhile (· ≠ slash)).dropWhile (· = slash),
    (path.takeWhile (· ≠ slash)).take DIRSIZ)

/-- The loop of `namex` with the current inode `ip`, the rest of the path, and
the last element copied into `name`. -/
def namexLoop (nameiparent : Bool) :
    Nat → Fin NINODE → List UInt8 → List UInt8 → FsM (Option (Fin NINODE) × List UInt8)
  | 0, ip, _, name => return (some ip, name)
  | fuel + 1, ip, path, name =>
    match skipelem path with
    | none =>
      if nameiparent then do
        iput ip
        return (none, name)
      else return (some ip, name)
    | some (path, name) => do
      ilock ip
      if (← slot ip).din.type ≠ T_DIR then
        iunlockput ip
        return (none, name)
      if nameiparent ∧ path = [] then
        -- stop one level early
        iunlock ip
        return (some ip, name)
      match ← dirlookup ip name with
      | none =>
        iunlockput ip
        return (none, name)
      | some (next, _) =>
        iunlockput ip
        namexLoop nameiparent fuel next path name

/-- `namex(path, nameiparent, name)` for a process whose working directory is
`cwd`: the inode (unlocked, referenced) and the last element copied into
`name`. -/
def namex (cwd : Fin NINODE) (path : List UInt8) (nameiparent : Bool) :
    FsM (Option (Fin NINODE) × List UInt8) := do
  let ip ← if path.headD 0 = slash then iget ROOTINO else idup cwd
  namexLoop nameiparent (path.length + 1) ip path []

/-- `namei(path)`. -/
def namei (cwd : Fin NINODE) (path : List UInt8) : FsM (Option (Fin NINODE)) := do
  return (← namex cwd path false).1

/-- `nameiparent(path, name)`. -/
def nameiparent (cwd : Fin NINODE) (path : List UInt8) :
    FsM (Option (Fin NINODE) × List UInt8) :=
  namex cwd path true

end Xv6
