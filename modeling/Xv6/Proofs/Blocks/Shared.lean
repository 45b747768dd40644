import Xv6.Blocks.Shared
import Xv6.Proofs.Blocks.UserCopy
import Xv6.Lib.Transition
import Xv6.Lib.StateExcept

/-!
# The shared offset

Every move of `f->off` is recorded, and the moves follow one another: each
starts where the one before it ended (`Tiles`).  So the offset never goes back,
the ranges that the rounds of `filewrite` report are disjoint and in order, a
write round moves the offset and its call's count `i` by the same amount, and
a file whose offset starts at its end keeps its size equal to the offset
(`shared_offset_tiles`).  What the rounds report is not all they change: a
round whose `copyin` fails part-way leaves the bytes it copied in the file at
`f->off` without moving it, and the next round overwrites them
(`failed_round_bytes_overwritten`).

## Strategy

Three facts about the block functions carry it, none of which needs the file's
blocks to be well formed: `bmap` and `readi` keep the size, `readi` returns at
most the bytes between the offset and the end, and `writei` either changes
nothing and returns `-1` or returns a count `k ≤ n` with the size
`max size (off + k)`.  Each step then appends at most one move, of what `writei`
or `readi` returned.
-/

namespace Xv6.Blocks

open Transition StateExcept

/-! ## What the block functions do to the size -/

section Sizes

variable {d d' : Dev} {ip ip' : Ino}

theorem indirectBlock_size (d : Dev) (ip : Ino) : (indirectBlock d ip).2.1.size = ip.size := by
  unfold indirectBlock
  split_ifs
  · -- the new indirect block, if `balloc` found one
    split
    split_ifs <;> rfl
  · rfl

theorem bmapEntry_size {ind bn a : Nat} (h : bmapEntry d ip ind bn = .ok (a, ip', d')) :
    ip'.size = ip.size := by
  unfold bmapEntry at h
  split_ifs at h
  · split at h
    split_ifs at h <;> cases h <;> rfl
  · cases h
    rfl

theorem bmap_size {bn a : Nat} (h : bmap d ip bn = .ok (a, ip', d')) : ip'.size = ip.size := by
  unfold bmap at h
  split_ifs at h
  · -- a direct block without an address
    split at h
    split_ifs at h <;> cases h <;> rfl
  · cases h
    rfl
  · -- an indirect block: first the indirect block itself
    split at h
    rename_i ind ip₁ d₁ hind
    have hsize : ip₁.size = ip.size := by
      rw [← indirectBlock_size d ip, hind]
    split_ifs at h
    · cases h
      exact hsize
    · exact (bmapEntry_size h).trans hsize

/-- The loop of `readi` keeps the size and returns at most `n` bytes. -/
theorem readLoop_size {n : Nat} : ∀ fuel off (acc : List UInt8) (ip : Ino) (d : Dev) bytes ip' d',
    readLoop n fuel off acc ip d = .ok (bytes, ip', d') → acc.length ≤ n →
      bytes.length ≤ n ∧ ip'.size = ip.size := by
  intro fuel
  induction fuel with
  | zero =>
    intro off acc ip d bytes ip' d' h hacc
    cases h
    exact ⟨hacc, rfl⟩
  | succ fuel ih =>
    intro off acc ip d bytes ip' d' h hacc
    unfold readLoop at h
    split_ifs at h with hlt
    · -- one round: the block of `off`, then the rest
      obtain ⟨⟨addr, ip₁, d₁⟩, hb, h⟩ := bind_eq_ok.mp h
      have hs₁ := bmap_size hb
      dsimp only at h
      split_ifs at h with haddr
      · cases h
        exact ⟨hacc, hs₁⟩
      · have hlen : (acc ++ LittleEndian.getBytes (d₁.buf addr) (off % BSIZE)
            (min (n - acc.length) (BSIZE - off % BSIZE))).length ≤ n := by
          simp [LittleEndian.getBytes]
          omega
        obtain ⟨hbytes, hsize⟩ := ih _ _ _ _ _ _ _ h hlen
        exact ⟨hbytes, hsize.trans hs₁⟩
    · cases h
      exact ⟨hacc, rfl⟩

/-- `readi` keeps the size and returns at most the bytes from `off` to the end. -/
theorem readi_size {off n : Nat} {bytes : List UInt8} (h : readi d ip off n = .ok (bytes, ip', d')) :
    bytes.length ≤ ip.size - off ∧ ip'.size = ip.size := by
  unfold readi at h
  by_cases hbad : off > ip.size ∨ (off + n) % 2 ^ 32 < off
  · rw [if_pos hbad] at h
    cases h
    exact ⟨Nat.zero_le _, rfl⟩
  · rw [if_neg hbad] at h
    dsimp only at h
    obtain ⟨hbytes, hsize⟩ := readLoop_size _ _ _ _ _ _ _ _ h (Nat.zero_le _)
    -- `n` is cut at the end of the file
    have hn : (if off + n > ip.size then ip.size - off else n) ≤ ip.size - off := by
      split_ifs <;> omega
    exact ⟨hbytes.trans hn, hsize⟩

/-- The loop of `writei` keeps the size, stores at most `n` bytes in all, and
ends at the offset where its last stored byte ended. -/
theorem writeLoop_off {src : Src} {n : Nat} :
    ∀ fuel off tot (ip : Ino) (d : Dev) k off' ip' d',
      writeLoop src n fuel off tot ip d = .ok (k, off', ip', d') → tot ≤ n →
        off' + tot = off + k ∧ tot ≤ k ∧ k ≤ n ∧ ip'.size = ip.size := by
  intro fuel
  induction fuel with
  | zero =>
    intro off tot ip d k off' ip' d' h htot
    cases h
    exact ⟨rfl, le_refl _, htot, rfl⟩
  | succ fuel ih =>
    intro off tot ip d k off' ip' d' h htot
    unfold writeLoop at h
    split_ifs at h with hlt
    · -- one round: the block of `off`, the copy, then the rest
      obtain ⟨⟨addr, ip₁, d₁⟩, hb, h⟩ := bind_eq_ok.mp h
      have hs₁ := bmap_size hb
      dsimp only at h
      split_ifs at h with haddr hok
      · cases h
        exact ⟨rfl, le_refl _, htot, hs₁⟩
      · cases h
        exact ⟨rfl, le_refl _, htot, hs₁⟩
      · obtain ⟨hoff, hk, hkn, hsize⟩ := ih _ _ _ _ _ _ _ _ h (by omega)
        exact ⟨by omega, by omega, hkn, hsize.trans hs₁⟩
    · cases h
      exact ⟨rfl, le_refl _, htot, rfl⟩

/-- `writei` changes nothing and returns `-1`, or returns a count `k ≤ n` of a
write from inside the file, and the size becomes `max size (off + k)`. -/
theorem writei_cases {src : Src} {off n : Nat} {r : Int} (h : writei d ip src off n = .ok (r, ip', d')) :
    (r = -1 ∧ ip' = ip) ∨
      ∃ k : Nat, r = k ∧ k ≤ n ∧ off ≤ ip.size ∧ ip'.size = max ip.size (off + k) := by
  unfold writei at h
  split_ifs at h with hbad hmax
  · cases h
    exact .inl ⟨rfl, rfl⟩
  · cases h
    exact .inl ⟨rfl, rfl⟩
  · obtain ⟨⟨k, off', ip₁, d₁⟩, hloop, h⟩ := bind_eq_ok.mp h
    obtain ⟨hoff, -, hkn, hsize⟩ := writeLoop_off _ _ _ _ _ _ _ _ _ hloop (Nat.zero_le _)
    cases h
    refine .inr ⟨k, rfl, hkn, by omega, ?_⟩
    split_ifs with hgt
    · dsimp only
      omega
    · omega

end Sizes

/-! ## Moves that follow one another -/

namespace Shared

variable {np : Nat} {s s' : Shared np} {p : Fin np}

/-- The moves, in order, tile `[a, b)`: each is of at least one byte and starts
where the one before it ended, the first at `a`, and the last ends at `b`. -/
def Tiles : Nat → List (Move np) → Nat → Prop
  | a, [], b => a = b
  | a, m :: ms, b => m.start = a ∧ 0 < m.count ∧ Tiles (a + m.count) ms b

theorem Tiles.snoc {m : Move np} (hstart : m.start = b) (hpos : 0 < m.count) :
    ∀ {a : Nat} {ms : List (Move np)}, Tiles a ms b → Tiles a (ms ++ [m]) (b + m.count)
  | _, [], h => ⟨hstart.trans h.symm, hpos, by rw [h]; rfl⟩
  | _, _ :: _, ⟨h₁, h₂, h₃⟩ => ⟨h₁, h₂, Tiles.snoc hstart hpos h₃⟩

/-- The offset reached is the start plus the bytes of every move. -/
theorem Tiles.eq_sum : ∀ {a b : Nat} {ms : List (Move np)}, Tiles a ms b →
    b = a + (ms.map Move.count).sum
  | _, _, [], h => by rw [h]; rfl
  | _, _, _ :: _, ⟨_, _, h⟩ => by
    rw [Tiles.eq_sum h, List.map_cons, List.sum_cons, Nat.add_assoc]

/-- Every move lies inside `[a, b)`. -/
theorem Tiles.bounds : ∀ {a b : Nat} {ms : List (Move np)}, Tiles a ms b →
    ∀ m ∈ ms, a ≤ m.start ∧ m.start + m.count ≤ b
  | _, _, [], _, _, hm => by cases hm
  | a, b, m₀ :: ms, ⟨hstart, _, h⟩, m, hm => by
    have hb := Tiles.eq_sum h
    rcases List.mem_cons.mp hm with rfl | hm
    · refine ⟨hstart.ge, ?_⟩
      rw [hb, hstart]
      omega
    · have := Tiles.bounds h m hm
      omega

/-- Each move ends before every later one starts. -/
theorem Tiles.pairwise : ∀ {a b : Nat} {ms : List (Move np)}, Tiles a ms b →
    ms.Pairwise fun m m' => m.start + m.count ≤ m'.start
  | _, _, [], _ => List.Pairwise.nil
  | _, _, m :: _, ⟨hstart, _, h⟩ => by
    refine List.Pairwise.cons (fun m' hm' => ?_) (Tiles.pairwise h)
    rw [hstart]
    exact (Tiles.bounds h m' hm').1

/-! ## Steps -/

@[simp] theorem setProc_off (s : Shared np) (p : Fin np) (c : Caller) : (s.setProc p c).off = s.off := rfl
@[simp] theorem setProc_moves (s : Shared np) (p : Fin np) (c : Caller) :
    (s.setProc p c).moves = s.moves := rfl
@[simp] theorem setProc_ip (s : Shared np) (p : Fin np) (c : Caller) : (s.setProc p c).ip = s.ip := rfl

@[simp] theorem advance_ip (s : Shared np) (p : Fin np) (r : Int) (w : Bool) :
    (s.advance p r w).ip = s.ip := by
  unfold advance
  split_ifs <;> rfl

theorem setProc_proc_self (s : Shared np) (p : Fin np) (c : Caller) : (s.setProc p c).proc p = c := by
  simp [setProc]

theorem advance_proc (s : Shared np) (p : Fin np) (r : Int) (w : Bool) :
    (s.advance p r w).proc = s.proc := by
  unfold advance
  split_ifs <;> rfl

/-- A `write` only starts the call. -/
theorem next_write {mem : UserMem} {addr : Nat} {n : Int} (h : s.Next (.write p mem addr n) s') :
    ∃ c, s' = s.setProc p c := by
  simp only [Next, step] at h
  split_ifs at h
  · exact ⟨_, (Except.ok.inj (Option.some.inj h)).symm⟩
  · exact ⟨_, (Except.ok.inj (Option.some.inj h)).symm⟩

/-- A `round` returns, or runs `writei` at `f->off` and advances by what it
stored; the call goes on only after a full chunk, with `i` moved by it. -/
theorem next_round (h : s.Next (.round p) s') :
    ∃ w, (s.proc p).call = some w ∧
      ((∃ ret, s' = s.setProc p { call := none, ret }) ∨
        ∃ r ip d c, writei s.d s.ip (.user w.mem (w.addr + w.i)) s.off
            (min (w.n - w.i).toNat filewriteMax) = .ok (r, ip, d) ∧
          s' = (({ s with ip, d } : Shared np).advance p r true).setProc p c ∧
          (c.call = none ∨ r = (min (w.n - w.i).toNat filewriteMax : Nat) ∧
            c.call = some { w with i := w.i + r.toNat })) := by
  simp only [Next, step] at h
  split at h
  · rename_i w hw
    refine ⟨w, hw, ?_⟩
    by_cases hlt : (w.i : Int) < w.n
    · -- one round of the loop
      rw [if_pos hlt] at h
      simp only [writeRound, Option.some.injEq] at h
      obtain ⟨⟨r, ip, d⟩, hwrite, h⟩ := bind_eq_ok.mp h
      dsimp only at h
      split_ifs at h with hr
      · exact .inr ⟨r, ip, d, _, hwrite, (Except.ok.inj h).symm, .inl rfl⟩
      · refine .inr ⟨r, ip, d, _, hwrite, (Except.ok.inj h).symm, .inr ⟨?_, ?_⟩⟩
        · exact not_not.mp hr
        · rw [advance_proc]
    · rw [if_neg hlt] at h
      exact .inl ⟨_, (Except.ok.inj (Option.some.inj h)).symm⟩
  · cases h

/-- A `read` returns `-1` on a file that is not readable, or runs `readi` at
`f->off` and advances by the bytes it copied out, if the copy succeeded. -/
theorem next_read {vm : UserVm} {addr : Nat} {n : Int} (h : s.Next (.read p vm addr n) s') :
    (∃ c, s' = s.setProc p c) ∨
      ∃ bytes ip d, ∃ r : Int, ∃ c, readi s.d s.ip s.off (n % 2 ^ 32).toNat = .ok (bytes, ip, d) ∧
        (r = bytes.length ∨ r = -1) ∧
        s' = (({ s with ip, d } : Shared np).advance p r false).setProc p c := by
  simp only [Next, step] at h
  split_ifs at h
  simp only [fileread, Option.some.injEq] at h
  split_ifs at h
  · exact .inl ⟨_, (Except.ok.inj h).symm⟩
  · obtain ⟨⟨bytes, ip, d⟩, hread, h⟩ := bind_eq_ok.mp h
    refine .inr ⟨bytes, ip, d, _, _, hread, ?_, (Except.ok.inj h).symm⟩
    split_ifs
    · exact .inl rfl
    · exact .inr rfl

/-- The offset moves by what the call returned, when it is positive. -/
theorem advance_off (s : Shared np) (p : Fin np) (r : Int) (w : Bool) :
    (s.advance p r w).off = s.off + r.toNat := by
  unfold advance
  split_ifs with hr
  · rfl
  · simp [Int.toNat_eq_zero.mpr (not_lt.mp hr)]

/-- No step moves the offset back. -/
theorem off_le_of_next {e : Event np} (h : s.Next e s') : s.off ≤ s'.off := by
  cases e with
  | write p mem addr n =>
    obtain ⟨c, rfl⟩ := next_write h
    exact le_refl _
  | round p =>
    obtain ⟨w, -, ⟨ret, rfl⟩ | ⟨r, ip, d, c, -, rfl, -⟩⟩ := next_round h
    · exact le_refl _
    · rw [setProc_off, advance_off]
      exact Nat.le_add_right _ _
  | read p vm addr n =>
    rcases next_read h with ⟨c, rfl⟩ | ⟨bytes, ip, d, r, c, -, -, rfl⟩
    · exact le_refl _
    · rw [setProc_off, advance_off]
      exact Nat.le_add_right _ _

/-- A round that goes on moved the offset and the call's count by the same
bytes. -/
theorem round_i_eq {w w' : Writing} (hw : (s.proc p).call = some w) (h : s.Next (.round p) s')
    (hw' : (s'.proc p).call = some w') : w'.i = w.i + (s'.off - s.off) := by
  obtain ⟨w₀, hw₀, ⟨ret, rfl⟩ | ⟨r, ip, d, c, -, rfl, hc⟩⟩ := next_round h
  · rw [setProc_proc_self] at hw'
    cases hw'
  · rw [hw] at hw₀
    cases hw₀
    rw [setProc_proc_self] at hw'
    rcases hc with hnone | ⟨-, hsome⟩
    · rw [hnone] at hw'
      cases hw'
    · rw [hsome] at hw'
      cases hw'
      rw [setProc_off, advance_off]
      dsimp only
      omega

/-- The moves of `f->off` from `a`: they tile `[a, f->off)`, and a write round
moved it by at most `filewriteMax`. -/
structure OffInv (a : Nat) (s : Shared np) : Prop where
  tiles : Tiles a s.moves s.off
  chunk_le : ∀ m ∈ s.moves, m.write = true → m.count ≤ filewriteMax

theorem OffInv.of_eq {a : Nat} (h : OffInv a s) (hoff : s'.off = s.off) (hmoves : s'.moves = s.moves) :
    OffInv a s' :=
  ⟨hoff ▸ hmoves ▸ h.tiles, hmoves ▸ h.chunk_le⟩

theorem OffInv.setProc {a : Nat} (h : OffInv a s) (p : Fin np) (c : Caller) : OffInv a (s.setProc p c) :=
  h.of_eq rfl rfl

theorem OffInv.advance {a : Nat} (h : OffInv a s) {ip : Ino} {d : Dev} {r : Int} {w : Bool}
    (hw : w = true → r ≤ filewriteMax) :
    OffInv a (({ s with ip, d } : Shared np).advance p r w) := by
  unfold Shared.advance
  split_ifs with hr
  · refine ⟨h.tiles.snoc rfl (by simpa using hr), fun m hm hmw => ?_⟩
    rcases List.mem_append.mp hm with hm | hm
    · exact h.chunk_le m hm hmw
    · rw [List.mem_singleton] at hm
      subst hm
      have := hw hmw
      dsimp only
      omega
  · exact h.of_eq rfl rfl

theorem OffInv.step {a : Nat} (h : OffInv a s) {e : Event np} (hstep : s.Next e s') : OffInv a s' := by
  cases e with
  | write p mem addr n =>
    obtain ⟨c, rfl⟩ := next_write hstep
    exact h.setProc p c
  | round p =>
    obtain ⟨w, -, ⟨ret, rfl⟩ | ⟨r, ip, d, c, hwrite, rfl, -⟩⟩ := next_round hstep
    · exact h.setProc p _
    · -- a round stores at most its chunk
      refine (h.advance fun _ => ?_).setProc p c
      rcases writei_cases hwrite with ⟨rfl, -⟩ | ⟨k, rfl, hk, -⟩
      · decide
      · have := min_le_right (w.n - w.i).toNat filewriteMax
        omega
  | read p vm addr n =>
    rcases next_read hstep with ⟨c, rfl⟩ | ⟨bytes, ip, d, r, c, -, -, rfl⟩
    · exact h.setProc p c
    · exact (h.advance fun h => by cases h).setProc p c

/-- A step from a state whose offset is at the end of the file keeps it there:
a round writes from the end, and a read at the end copies nothing. -/
theorem atEnd_step (hend : s.ip.size = s.off) {e : Event np} (hstep : s.Next e s') :
    s'.ip.size = s'.off := by
  cases e with
  | write p mem addr n =>
    obtain ⟨c, rfl⟩ := next_write hstep
    exact hend
  | round p =>
    obtain ⟨w, -, ⟨ret, rfl⟩ | ⟨r, ip, d, c, hwrite, rfl, -⟩⟩ := next_round hstep
    · exact hend
    · rw [setProc_off, setProc_ip, advance_off, advance_ip]
      rcases writei_cases hwrite with ⟨rfl, rfl⟩ | ⟨k, rfl, -, -, hsize⟩
      · simpa using hend
      · rw [hsize, hend]
        simp
  | read p vm addr n =>
    rcases next_read hstep with ⟨c, rfl⟩ | ⟨bytes, ip, d, r, c, hread, hr, rfl⟩
    · exact hend
    · obtain ⟨hlen, hsize⟩ := readi_size hread
      rw [setProc_off, setProc_ip, advance_off, advance_ip]
      dsimp only
      -- nothing lies past the end
      have hzero : r.toNat = 0 := by
        rcases hr with rfl | rfl
        · simp only [Int.toNat_natCast]
          omega
        · rfl
      rw [hzero, hsize, hend, Nat.add_zero]

theorem offInv_of_reachable {s₀ : Shared np} (h0 : s₀.Init) (hs : Reachable (· = s₀) Next s) :
    OffInv s₀.off s := by
  refine Reachable.invariant (I := OffInv s₀.off) ?_ (fun _ _ _ _ hi hn => hi.step hn) hs
  rintro _ rfl
  refine ⟨?_, ?_⟩
  · rw [h0.1]
    rfl
  · rw [h0.1]
    intro m hm
    cases hm

theorem atEnd_of_reachable {s₀ : Shared np} (hend : s₀.ip.size = s₀.off)
    (hs : Reachable (· = s₀) Next s) : s.ip.size = s.off := by
  refine Reachable.invariant (I := fun s : Shared np => s.ip.size = s.off) ?_
    (fun _ _ _ _ hi hn => atEnd_step hi hn) hs
  rintro _ rfl
  exact hend

end Shared

open Shared

/-- For any interleaving of `read` and `write` calls on one shared file: the
offset never goes back; its moves, each by what one `readi` or one round of
`writei` returned, start where the one before ended, so the ranges they cover
are disjoint and in order, and a write round covers at most `filewriteMax`
bytes; a round after which the call goes on moved the offset and the call's
`i` by the same bytes; and an offset that starts at the end of the file stays
at its end. -/
theorem shared_offset_tiles {np : Nat} {s₀ s : Shared np} (h0 : s₀.Init)
    (hs : Reachable (· = s₀) Shared.Next s) :
    s₀.off ≤ s.off ∧ Tiles s₀.off s.moves s.off ∧
    s.off = s₀.off + (s.moves.map Move.count).sum ∧
    s.moves.Pairwise (fun m m' => m.start + m.count ≤ m'.start) ∧
    (∀ m ∈ s.moves, m.write = true → m.count ≤ filewriteMax) ∧
    (∀ e s', s.Next e s' → s.off ≤ s'.off) ∧
    (∀ p w w' s', (s.proc p).call = some w → s.Next (.round p) s' →
      (s'.proc p).call = some w' → w'.i = w.i + (s'.off - s.off)) ∧
    (s₀.off = s₀.ip.size → s.ip.size = s.off) := by
  have h := offInv_of_reachable h0 hs
  have hsum := h.tiles.eq_sum
  refine ⟨by omega, h.tiles, hsum, h.tiles.pairwise, h.chunk_le, fun e s' hn => off_le_of_next hn,
    fun p w w' s' hw hn hw' => round_i_eq hw hn hw', fun hend => atEnd_of_reachable hend.symm hs⟩


/-- The file of eight zero bytes in block 1, open for reading and writing and
shared by two processes, with the offset at 0. -/
def sharedEight : Shared 2 where
  d := twoByteDev
  ip := eightByteIno
  readable := true
  writable := true
  off := 0
  proc _ := { call := none, ret := 0 }
  moves := []

theorem sharedEight_init : sharedEight.Init := ⟨rfl, fun _ => rfl⟩

/-- User memory whose page 0 starts with the byte 7. -/
def sevenMem : UserMem :=
  fun pn => if pn = 0 then some (fun i => if i.val = 0 then 7 else 0) else none

/-- The statement after two rounds: processes 0 and 1 each write the byte 7
through the shared file, one after the other, so the offset has moved twice,
by one byte each time, the second move starting where the first ended. -/
theorem shared_offset_tiles_twoRounds :
    ∃ s : Shared 2, Reachable (· = sharedEight) Shared.Next s ∧
      s.moves = [⟨0, 0, 1, true⟩, ⟨1, 1, 1, true⟩] ∧
      sharedEight.off ≤ s.off ∧ Tiles sharedEight.off s.moves s.off ∧
      s.off = sharedEight.off + (s.moves.map Move.count).sum ∧
      s.moves.Pairwise (fun m m' => m.start + m.count ≤ m'.start) ∧
      (∀ m ∈ s.moves, m.write = true → m.count ≤ filewriteMax) ∧
      (∀ e s', s.Next e s' → s.off ≤ s'.off) ∧
      (∀ p w w' s', (s.proc p).call = some w → s.Next (.round p) s' →
        (s'.proc p).call = some w' → w'.i = w.i + (s'.off - s.off)) ∧
      (sharedEight.off = sharedEight.ip.size → s.ip.size = s.off) := by
  have hrun : (exec (okStep Shared.step) sharedEight
      [.write 0 sevenMem 0 1, .round 0, .write 1 sevenMem 0 1, .round 1]).map
      (fun s => decide (s.moves = [⟨0, 0, 1, true⟩, ⟨1, 1, 1, true⟩])) = some true := by
    decide +kernel
  have hsound : ∀ (s : Shared 2) e s', okStep Shared.step s e = some s' → s.Next e s' :=
    fun _ _ _ h => okStep_eq_some h
  obtain ⟨s, hs, hmoves⟩ := Reachable.exists_of_exec_decide hsound hrun
  exact ⟨s, hs, hmoves, shared_offset_tiles sharedEight_init hs⟩

/-- Process 0 writes four bytes from two bytes before an unmapped page: its
round copies the two bytes `0xaa` of the mapped page into the file at offset 0,
returns 0, and the call returns `-1` with the offset still at 0 and no move.
Process 1 then writes the byte 7 through the same file: its round starts at
offset 0 and overwrites the first of the two bytes process 0 left. -/
theorem failed_round_bytes_overwritten :
    ∃ s₁ s₂, Reachable (· = sharedEight) Shared.Next s₁ ∧ s₁.Next (.round 1) s₂ ∧
      s₁.off = 0 ∧ s₁.moves = [] ∧ (s₁.proc 0).ret = -1 ∧
      (readi s₁.d s₁.ip 0 2).map Prod.fst = .ok [0xaa, 0xaa] ∧
      s₂.moves = [⟨1, 0, 1, true⟩] ∧ (readi s₂.d s₂.ip 0 2).map Prod.fst = .ok [7, 0xaa] := by
  have hrun : (exec (okStep Shared.step) sharedEight
      [.write 0 onePageMem (PGSIZE - 2) 4, .round 0, .write 1 sevenMem 0 1]).map (fun s₁ =>
      decide (s₁.off = 0 ∧ s₁.moves = [] ∧ (s₁.proc 0).ret = -1 ∧
        (readi s₁.d s₁.ip 0 2).map Prod.fst = .ok [0xaa, 0xaa]) &&
      (okStep Shared.step s₁ (.round 1)).any fun s₂ =>
        decide (s₂.moves = [⟨1, 0, 1, true⟩] ∧
          (readi s₂.d s₂.ip 0 2).map Prod.fst = .ok [7, 0xaa])) = some true := by
    decide +kernel
  have hsound : ∀ (s : Shared 2) e s', okStep Shared.step s e = some s' → s.Next e s' :=
    fun _ _ _ h => okStep_eq_some h
  obtain ⟨s₁, hs₁, hp⟩ := Reachable.exists_of_exec hsound hrun
  rw [Bool.and_eq_true, Option.any_eq_true] at hp
  obtain ⟨hbefore, s₂, hstep, hafter⟩ := hp
  obtain ⟨hoff, hmoves, hret, hread⟩ := of_decide_eq_true hbefore
  obtain ⟨hmoves₂, hread₂⟩ := of_decide_eq_true hafter
  exact ⟨s₁, s₂, hs₁, okStep_eq_some hstep, hoff, hmoves, hret, hread, hmoves₂, hread₂⟩

end Xv6.Blocks
