import Xv6.Memmove

/-!
# grep

`user/grep.c`: the matcher of Kernighan and Pike (`matchhere`, `matchstar`,
`match`) and the driver `grep`, which reads its input into `buf` in chunks,
writes the lines that match, and keeps the partial line at the end of the
buffer for the next read.

A C string is the list of its bytes before the NUL, so the end of a list
reads as the NUL: `re[1] == '*'` is a pattern `c :: 42 :: re`, and
`*text != '\0'` a text `t :: text`.  `matchstar` gets the `matchhere` it
calls as the function `here`, which makes both definitions structural.

The driver's input is a byte stream, and `read` returns as many bytes as the
stream's producer has made available: at least one and at most the count, or
none at the end or for a count of 0.  How many is the environment's choice,
one number `k` per read, so `grep` is run against every list of choices.
-/

namespace Xv6

namespace User

/-- `strchr(s, c)` of `user/ulib.c`: the offset of the first `c` before the
NUL of `s`, or `0` (`none`). -/
def strchr : List UInt8 → UInt8 → Option Nat
  | [], _ => none
  | b :: s, c => if b = 0 then none else if b = c then some 0 else (strchr s c).map (· + 1)

end User

namespace Grep

/-- `matchstar(c, re, text)`: `here` is `matchhere(re, ·)`; the do-while
tries it at `text`, then moves on while the byte passed is `c` (any byte when
`c` is '.'). -/
def matchstar (c : UInt8) (here : List UInt8 → Bool) : List UInt8 → Bool
  | [] => here []
  | t :: text => here (t :: text) || ((t == c || c == 46) && matchstar c here text)

/-- `matchhere(re, text)`: search for `re` at the beginning of `text`. -/
def matchhere : List UInt8 → List UInt8 → Bool
  | [], _ => true
  | c :: 42 :: re, text => matchstar c (matchhere re) text
  | [36], text => text.isEmpty
  | c :: re, t :: text => (c == 46 || c == t) && matchhere re text
  | _ :: _, [] => false

/-- The do-while of `match`: `matchhere(re, text)` at every suffix of `text`,
the empty one included. -/
def matchSuffixes (re : List UInt8) : List UInt8 → Bool
  | [] => matchhere re []
  | t :: text => matchhere re (t :: text) || matchSuffixes re text

/-- `match(re, text)`: search for `re` anywhere in `text`. -/
def «match» (re text : List UInt8) : Bool :=
  match re with
  | 94 :: re => matchhere re text
  | _ => matchSuffixes re text

/-- How many bytes `read(fd, buf+m, count)` returns when `rem` is what is
left of the stream and `k` the environment's choice. -/
def readLen (rem : List UInt8) (count k : Nat) : Nat :=
  min (max k 1) (min count rem.length)

/-- The inner loop of `grep` over `data`, the bytes `buf[0..m)` (the list's
end is the NUL stored at `buf[m]`), from offset `p`: each line `strchr`
finds is matched without its '\n' and written with it when it matches.
Returns the bytes written and the offset where `strchr` found no '\n'.  Each
round moves `p` past a '\n', so `fuel` beyond `m - p` is never used. -/
def scanLines (pattern data : List UInt8) : Nat → Nat → List UInt8 × Nat
  | 0, p => ([], p)
  | fuel + 1, p =>
    match User.strchr (data.drop p) 10 with
    | none => ([], p)
    | some i =>
      let line := (data.drop p).take i
      let rest := scanLines pattern data fuel (p + i + 1)
      ((if «match» pattern line then line ++ [10] else []) ++ rest.1, rest.2)

/-- `m -= p - buf; memmove(buf, p, m);`: the bytes from `p` on, moved to the
front of `buf`. -/
def compact (data : List UInt8) (p : Nat) : List UInt8 :=
  let m := data.length - p
  (List.range m).map (User.memmove (fun a => data.getD a 0) 0 p m)

/-- The outer loop of `grep(pattern, fd)`: `buf` holds the `m` bytes kept
from the last round, `rem` is what is left of the stream, `ks` the
environment's choices for the reads.  Each round reads at least one byte, so
`fuel` beyond the length of `rem` is never used. -/
def grepLoop (pattern : List UInt8) : Nat → List UInt8 → List UInt8 → List Nat → List UInt8
  | 0, _, _, _ => []
  | fuel + 1, buf, rem, ks =>
    let n := readLen rem (1024 - buf.length - 1) (ks.headD 0)
    if n = 0 then []
    else
      let data := buf ++ rem.take n
      let scan := scanLines pattern data (data.length + 1) 0
      let buf' := if data.length > 0 then compact data scan.2 else data
      scan.1 ++ grepLoop pattern fuel buf' (rem.drop n) ks.tail

/-- `grep(pattern, fd)` on the stream `input`, read as `ks` chooses: the
bytes it writes to fd 1. -/
def grep (pattern input : List UInt8) (ks : List Nat) : List UInt8 :=
  grepLoop pattern (input.length + 1) [] input ks

end Grep

end Xv6
