import Xv6.Console
import Xv6.Lib.Transition

/-!
# The console's indices and committed input

What holds of the console in every reachable state: `w` lies between `r` and
`e`, and `e` at most `INPUT_BUF_SIZE` bytes after `r`, counted with the `uint`
differences that wrap (`ordered_of_reachable`).  The editor never changes the
committed bytes that are not read yet; it only appends to them, the bytes it
commits (`ConsSys.pending_intr`).

What does not hold: that the reads deliver the committed input.  `consoleread`
takes a byte out of the ring with `cons.r++` before its `copyout`, so a copy
that fails loses the byte (`copyout_failure_loses_input`).

## Strategy

The indices are kept as the `Nat` values of the differences `w - r` and
`e - r`, which move by one at each step: a few lemmas on `UInt32` subtraction
turn each update of an index into such a move.  The bytes between two indices
are a list read off the ring (`Cons.between`), with one lemma for a byte put
after its end, one for a byte taken from its front and one for a write outside
it.
-/

namespace Xv6.Console

open Transition

/-! ## Differences of wrapping indices -/

section Wrap

variable {a b : UInt32}

theorem toNat_add_one_sub (h : (a - b).toNat + 1 < 2 ^ 32) :
    (a + 1 - b).toNat = (a - b).toNat + 1 := by
  have := a.toNat_lt
  have := b.toNat_lt
  simp only [UInt32.toNat_sub, UInt32.toNat_add, UInt32.toNat_one] at h ⊢
  omega

theorem toNat_sub_one_sub (h : a ≠ b) : (a - 1 - b).toNat = (a - b).toNat - 1 := by
  have := a.toNat_lt
  have := b.toNat_lt
  have hne : a.toNat ≠ b.toNat := fun he => h (UInt32.toNat_inj.mp he)
  simp only [UInt32.toNat_sub, UInt32.toNat_one]
  omega

theorem toNat_sub_add_one (h : a ≠ b) : (a - (b + 1)).toNat = (a - b).toNat - 1 := by
  have := a.toNat_lt
  have := b.toNat_lt
  have hne : a.toNat ≠ b.toNat := fun he => h (UInt32.toNat_inj.mp he)
  simp only [UInt32.toNat_sub, UInt32.toNat_add, UInt32.toNat_one]
  omega

theorem toNat_sub_eq_zero_iff : (a - b).toNat = 0 ↔ a = b := by
  have := a.toNat_lt
  have := b.toNat_lt
  rw [← UInt32.toNat_inj, UInt32.toNat_sub]
  omega

theorem toNat_sub_eq_iff {c : UInt32} : (a - c).toNat = (b - c).toNat ↔ a = b := by
  have := a.toNat_lt
  have := b.toNat_lt
  have := c.toNat_lt
  rw [← UInt32.toNat_inj (a := a), UInt32.toNat_sub, UInt32.toNat_sub]
  omega

theorem toNat_toUInt32 {k : Nat} (hk : k < 2 ^ 32) : k.toUInt32.toNat = k := by
  rw [Nat.toUInt32_eq, UInt32.toNat_ofNat_of_lt' hk]

theorem toUInt32_add (m n : Nat) : (m + n).toUInt32 = m.toUInt32 + n.toUInt32 := by
  simp [Nat.toUInt32_eq]

theorem add_toUInt32_toNat_sub (a b : UInt32) : a + (b - a).toNat.toUInt32 = b := by
  rw [Nat.toUInt32_eq, UInt32.ofNat_toNat]
  grind

end Wrap

namespace Cons

variable {cs : Cons} {a b i : UInt32}

/-! ## The bytes between two indices -/

/-- Two indices less than `INPUT_BUF_SIZE` apart, in order, are in different
slots: `2^32` is a multiple of `INPUT_BUF_SIZE`. -/
theorem slot_ne_of_lt {k : Nat} (hk : k < (i - a).toNat) (hi : (i - a).toNat < INPUT_BUF_SIZE) :
    slot (a + k.toUInt32) ≠ slot i := by
  intro heq
  have hslot := congrArg Fin.val heq
  have := a.toNat_lt
  have := i.toNat_lt
  have hk' : k.toUInt32.toNat = k := by
    apply toNat_toUInt32
    unfold INPUT_BUF_SIZE at hi
    omega
  simp only [slot, UInt32.toNat_add, hk', INPUT_BUF_SIZE] at hslot
  simp only [UInt32.toNat_sub, INPUT_BUF_SIZE] at hk hi
  omega

/-- The bytes depend on the ring only. -/
theorem between_congr {cs' : Cons} (h : cs'.buf = cs.buf) (a b : UInt32) :
    cs'.between a b = cs.between a b := by
  simp [between, h]

theorem between_self (cs : Cons) (a : UInt32) : cs.between a a = [] := by
  simp [between]

@[simp] theorem length_between (cs : Cons) (a b : UInt32) : (cs.between a b).length = (b - a).toNat := by
  simp [between]

/-- A byte taken from the front. -/
theorem between_of_ne (cs : Cons) (h : a ≠ b) :
    cs.between a b = cs.buf (slot a) :: cs.between (a + 1) b := by
  have hlen : (b - a).toNat = (b - (a + 1)).toNat + 1 := by
    rw [toNat_sub_add_one (Ne.symm h)]
    have : (b - a).toNat ≠ 0 := fun h0 => h (toNat_sub_eq_zero_iff.mp h0).symm
    omega
  simp only [between, hlen, List.range_succ_eq_map, List.map_cons, List.map_map]
  congr 1
  · simp
  · apply List.map_congr_left
    intro k _
    have hk : a + (k + 1).toUInt32 = a + 1 + k.toUInt32 := by
      rw [toUInt32_add]
      simp only [Nat.toUInt32_eq, UInt32.ofNat_one]
      grind
    simp only [Function.comp_apply, Nat.succ_eq_add_one, hk]

/-- A byte put after the end. -/
theorem between_succ (cs : Cons) (h : (b - a).toNat + 1 < 2 ^ 32) :
    cs.between a (b + 1) = cs.between a b ++ [cs.buf (slot b)] := by
  have hlen : (b + 1 - a).toNat = (b - a).toNat + 1 := toNat_add_one_sub h
  simp only [between, hlen, List.range_succ, List.map_append, List.map_cons, List.map_nil]
  rw [add_toUInt32_toNat_sub]

/-- Bytes `[a, c)` are bytes `[a, b)` followed by `[b, c)`, for `b` in between. -/
theorem between_append (cs : Cons) {c : UInt32} (h : (b - a).toNat ≤ (c - a).toNat) :
    cs.between a c = cs.between a b ++ cs.between b c := by
  have hlen : (c - a).toNat = (b - a).toNat + (c - b).toNat := by
    have := a.toNat_lt
    have := b.toNat_lt
    have := c.toNat_lt
    simp only [UInt32.toNat_sub] at h ⊢
    omega
  simp only [between, hlen, List.range_add, List.map_append, List.map_map]
  congr 1
  apply List.map_congr_left
  intro k _
  rw [Function.comp_apply, toUInt32_add, ← UInt32.add_assoc, add_toUInt32_toNat_sub]

/-- A write to a slot outside the bytes leaves them alone. -/
theorem between_update_outside (cs : Cons) {v : UInt8} (hout : (b - a).toNat ≤ (i - a).toNat)
    (hi : (i - a).toNat < INPUT_BUF_SIZE) :
    { cs with buf := Function.update cs.buf (slot i) v }.between a b = cs.between a b := by
  simp only [between]
  apply List.map_congr_left
  intro k hk
  rw [List.mem_range] at hk
  exact Function.update_of_ne (slot_ne_of_lt (by omega) hi) _ _

/-! ## The order of the indices -/

/-- `w` lies between `r` and `e`, and `e` at most `INPUT_BUF_SIZE` bytes after
`r`. -/
structure Ordered (cs : Cons) : Prop where
  w_le_e : (cs.w - cs.r).toNat ≤ (cs.e - cs.r).toNat
  e_le : (cs.e - cs.r).toNat ≤ INPUT_BUF_SIZE

/-- The line being edited is not empty when `e ≠ w`; then `e` is past `r` too. -/
theorem Ordered.lt_of_ne (h : cs.Ordered) (hne : cs.e ≠ cs.w) :
    (cs.w - cs.r).toNat < (cs.e - cs.r).toNat := by
  have hd : (cs.e - cs.r).toNat ≠ (cs.w - cs.r).toNat := fun he => hne (toNat_sub_eq_iff.mp he)
  have := h.w_le_e
  omega

/-- Backspace: one byte of the line being edited goes. -/
theorem Ordered.erase (h : cs.Ordered) (hne : cs.e ≠ cs.w) : ({ cs with e := cs.e - 1 }).Ordered := by
  have hlt := h.lt_of_ne hne
  have her : cs.e ≠ cs.r := fun he => by rw [he, UInt32.sub_self] at hlt; simp at hlt
  constructor
  · show (cs.w - cs.r).toNat ≤ (cs.e - 1 - cs.r).toNat
    rw [toNat_sub_one_sub her]
    omega
  · show (cs.e - 1 - cs.r).toNat ≤ INPUT_BUF_SIZE
    rw [toNat_sub_one_sub her]
    have := h.e_le
    omega

/-- A byte is taken by a reader: `r` moves towards `w`. -/
theorem Ordered.take (h : cs.Ordered) (hne : cs.r ≠ cs.w) : ({ cs with r := cs.r + 1 }).Ordered := by
  have hw : cs.w ≠ cs.r := Ne.symm hne
  have hwpos : 0 < (cs.w - cs.r).toNat := by
    have := (toNat_sub_eq_zero_iff (a := cs.w) (b := cs.r)).not.mpr hw
    omega
  have he : cs.e ≠ cs.r := fun he => by
    have := h.w_le_e
    rw [he, UInt32.sub_self] at this
    simp at this
    omega
  constructor
  · show (cs.w - (cs.r + 1)).toNat ≤ (cs.e - (cs.r + 1)).toNat
    rw [toNat_sub_add_one hw, toNat_sub_add_one he]
    have := h.w_le_e
    omega
  · show (cs.e - (cs.r + 1)).toNat ≤ INPUT_BUF_SIZE
    rw [toNat_sub_add_one he]
    have := h.e_le
    omega

@[simp] theorem killLine_buf (fuel : Nat) (cs : Cons) : (killLine fuel cs).buf = cs.buf := by
  induction fuel generalizing cs with
  | zero => rfl
  | succ fuel ih =>
    rw [killLine]
    split_ifs
    · exact ih _
    · rfl

@[simp] theorem killLine_r (fuel : Nat) (cs : Cons) : (killLine fuel cs).r = cs.r := by
  induction fuel generalizing cs with
  | zero => rfl
  | succ fuel ih =>
    rw [killLine]
    split_ifs
    · exact ih _
    · rfl

@[simp] theorem killLine_w (fuel : Nat) (cs : Cons) : (killLine fuel cs).w = cs.w := by
  induction fuel generalizing cs with
  | zero => rfl
  | succ fuel ih =>
    rw [killLine]
    split_ifs
    · exact ih _
    · rfl

/-- Ctrl-U erases one byte of the line at a time and stops at `w`. -/
theorem Ordered.killLine (h : cs.Ordered) (fuel : Nat) : (Cons.killLine fuel cs).Ordered := by
  induction fuel generalizing cs with
  | zero => exact h
  | succ fuel ih =>
    rw [Cons.killLine]
    split_ifs with hgo
    · exact ih (h.erase hgo.1)
    · exact h

end Cons

open Cons

/-! ## The editor -/

/-- A byte stored at `e`, with room for it. -/
theorem Cons.Ordered.store {cs : Cons} (h : cs.Ordered) (hroom : (cs.e - cs.r).toNat < INPUT_BUF_SIZE)
    (v : UInt8) :
    ({ cs with buf := Function.update cs.buf (slot cs.e) v, e := cs.e + 1 }).Ordered := by
  have hsucc : (cs.e + 1 - cs.r).toNat = (cs.e - cs.r).toNat + 1 := by
    apply toNat_add_one_sub
    unfold INPUT_BUF_SIZE at hroom
    omega
  constructor
  · show (cs.w - cs.r).toNat ≤ (cs.e + 1 - cs.r).toNat
    rw [hsucc]
    have := h.w_le_e
    omega
  · show (cs.e + 1 - cs.r).toNat ≤ INPUT_BUF_SIZE
    rw [hsucc]
    omega

theorem room_iff {cs : Cons} : cs.e - cs.r < INPUT_BUF_SIZE.toUInt32 ↔
    (cs.e - cs.r).toNat < INPUT_BUF_SIZE := by
  rw [UInt32.lt_iff_toNat_lt]
  rfl

/-- What the editor may do to the console: `r` stays, the order is kept, `w`
only moves on, and the committed bytes not yet read are extended by the bytes
it commits, with none of them changed. -/
structure Edit (cs cs' : Cons) : Prop where
  r_eq : cs'.r = cs.r
  ordered : cs'.Ordered
  w_le : (cs.w - cs.r).toNat ≤ (cs'.w - cs.r).toNat
  pending : cs'.between cs.r cs'.w = cs.between cs.r cs.w ++ cs'.between cs.w cs'.w

/-- An edit of the line being typed, which commits nothing. -/
theorem Edit.of_line {cs cs' : Cons} (hord : cs'.Ordered) (hr : cs'.r = cs.r) (hw : cs'.w = cs.w)
    (hbuf : cs'.buf = cs.buf) : Edit cs cs' where
  r_eq := hr
  ordered := hord
  w_le := by rw [hw]
  pending := by rw [hw, between_self, List.append_nil, between_congr hbuf]

/-- A byte `v` stored at `e`, and the line committed or not: the store branch
of `consoleintr`. -/
theorem edit_store {cs : Cons} (h : cs.Ordered) (hroom : (cs.e - cs.r).toNat < INPUT_BUF_SIZE)
    (v : UInt8) :
    Edit cs (let cs' := { cs with buf := Function.update cs.buf (Cons.slot cs.e) v, e := cs.e + 1 }
      if v = ch '\n' ∨ v = C 'D' ∨ cs'.e - cs'.r = INPUT_BUF_SIZE.toUInt32 then
        ({ cs' with w := cs'.e }, true)
      else (cs', false)).1 := by
  have hord := h.store hroom v
  have hsucc : (cs.e + 1 - cs.r).toNat = (cs.e - cs.r).toNat + 1 := by
    apply toNat_add_one_sub
    unfold INPUT_BUF_SIZE at hroom
    omega
  -- the committed bytes are in the slots before `e`, which the store misses
  have hkept := between_update_outside cs (v := v) h.w_le_e hroom
  dsimp only
  split_ifs with hcommit
  · refine ⟨rfl, ⟨le_refl _, hord.e_le⟩, ?_, ?_⟩
    · show (cs.w - cs.r).toNat ≤ (cs.e + 1 - cs.r).toNat
      rw [hsucc]
      exact Nat.le_succ_of_le h.w_le_e
    · show Cons.between _ cs.r (cs.e + 1) = _
      rw [between_append _ (b := cs.w) (by rw [hsucc]; exact Nat.le_succ_of_le h.w_le_e)]
      congr 1
  · refine ⟨rfl, hord, le_refl _, ?_⟩
    rw [between_self, List.append_nil]
    exact hkept

/-- `consoleintr` is an edit. -/
theorem consoleintr_edit {cs : Cons} (h : cs.Ordered) (c : UInt8) : Edit cs (consoleintr cs c).1 := by
  unfold consoleintr
  by_cases hP : c = C 'P'
  · rw [if_pos hP]
    exact Edit.of_line h rfl rfl rfl
  rw [if_neg hP]
  by_cases hU : c = C 'U'
  · -- Ctrl-U
    rw [if_pos hU]
    exact Edit.of_line (h.killLine _) (killLine_r _ _) (killLine_w _ _) (killLine_buf _ _)
  rw [if_neg hU]
  by_cases hH : c = C 'H' ∨ c = 0x7f
  · -- backspace
    rw [if_pos hH]
    split_ifs with hne
    · exact Edit.of_line (h.erase hne) rfl rfl rfl
    · exact Edit.of_line h rfl rfl rfl
  rw [if_neg hH]
  by_cases hstore : c ≠ 0 ∧ cs.e - cs.r < INPUT_BUF_SIZE.toUInt32
  · rw [if_pos hstore]
    exact edit_store h (room_iff.mp hstore.2) _
  · rw [if_neg hstore]
    exact Edit.of_line h rfl rfl rfl

/-! ## The reader -/

/-- A piece of `consoleread` keeps `w` and `e`, and the order of the indices;
the bytes it takes are the first ones committed. -/
theorem readLoop_spec (killed : Bool) (fuel : Nat) {cs : Cons} (h : cs.Ordered) (rd : Reading)
    (got : List UInt8) :
    (readLoop killed fuel cs rd got).1.w = cs.w ∧ (readLoop killed fuel cs rd got).1.e = cs.e ∧
      (readLoop killed fuel cs rd got).1.Ordered ∧
      (readLoop killed fuel cs rd got).1.buf = cs.buf := by
  induction fuel generalizing cs rd got with
  | zero => exact ⟨rfl, rfl, h, rfl⟩
  | succ fuel ih =>
    rw [readLoop]
    by_cases hn : 0 < rd.n
    swap
    · rw [if_neg hn]
      exact ⟨rfl, rfl, h, rfl⟩
    rw [if_pos hn]
    by_cases hempty : cs.r = cs.w
    · -- nothing committed: the piece returns or sleeps
      rw [if_pos hempty]
      split_ifs <;> exact ⟨rfl, rfl, h, rfl⟩
    rw [if_neg hempty]
    dsimp only
    by_cases hD : cs.buf (Cons.slot cs.r) = C 'D'
    · rw [if_pos hD]
      split_ifs with hback
      · -- the ^D is put back: `r` is where it was
        refine ⟨rfl, rfl, ?_, rfl⟩
        have hr : cs.r + 1 - 1 = cs.r := by grind
        simpa only [hr] using h
      · exact ⟨rfl, rfl, h.take hempty, rfl⟩
    rw [if_neg hD]
    split
    · split_ifs
      · exact ⟨rfl, rfl, h.take hempty, rfl⟩
      · exact ih (h.take hempty) _ _
    · exact ⟨rfl, rfl, h.take hempty, rfl⟩

namespace ConsSys

variable {np : Nat} {s s' : ConsSys np}

theorem Ordered.intr (h : s.cons.Ordered) (c : UInt8) : (s.intr c).cons.Ordered := by
  unfold ConsSys.intr
  dsimp only
  split
  · exact (consoleintr_edit h c).ordered
  · exact (consoleintr_edit h c).ordered

theorem Ordered.runRead (h : s.cons.Ordered) (p : Fin np) (rd : Reading) :
    (s.runRead p rd).cons.Ordered := by
  unfold ConsSys.runRead
  dsimp only
  split <;> exact (readLoop_spec _ _ h _ _).2.2.1

theorem ordered_step (h : s.cons.Ordered) {e : Event np} (hstep : s.Next e s') : s'.cons.Ordered := by
  unfold Next at hstep
  cases e with
  | intr c =>
    cases hstep
    exact Ordered.intr h c
  | read p vm dst n =>
    simp only [ConsSys.step] at hstep
    split_ifs at hstep
    cases hstep
    exact Ordered.runRead h p _
  | resume p =>
    simp only [ConsSys.step] at hstep
    split at hstep
    · split_ifs at hstep
      cases hstep
      exact Ordered.runRead h p _
    · cases hstep
  | kill p =>
    cases hstep
    exact h

/-- In every reachable state `w - r ≤ e - r ≤ INPUT_BUF_SIZE`, with the `uint`
subtractions of the source. -/
theorem ordered_of_reachable (hs : Reachable ConsSys.Init ConsSys.Next s) :
    s.cons.w - s.cons.r ≤ s.cons.e - s.cons.r ∧ s.cons.e - s.cons.r ≤ INPUT_BUF_SIZE.toUInt32 := by
  have hord : s.cons.Ordered := by
    refine Reachable.invariant (I := fun s : ConsSys np => s.cons.Ordered) ?_
      (fun _ _ _ _ hi hn => ordered_step hi hn) hs
    intro s₀ h₀
    obtain ⟨hrw, hwe, -⟩ := h₀
    constructor
    · rw [hrw, hwe]
    · rw [← hwe, ← hrw, UInt32.sub_self]
      exact Nat.zero_le _
  rw [UInt32.le_iff_toNat_le, UInt32.le_iff_toNat_le]
  exact ⟨hord.w_le_e, hord.e_le⟩

/-- What an interrupt commits is what it appends to the committed bytes not
yet read: the editor changes none of the bytes before `w`. -/
theorem pending_intr (h : s.cons.Ordered) (c : UInt8) :
    (s.intr c).cons.r = s.cons.r ∧
      (s.intr c).cons.between (s.intr c).cons.r (s.intr c).cons.w =
        s.cons.between s.cons.r s.cons.w ++ ((s.intr c).committed.drop s.committed.length) := by
  obtain ⟨hr, -, -, hpend⟩ := consoleintr_edit h c
  unfold ConsSys.intr
  dsimp only
  split
  · simp only [ConsSys.wakeup, List.drop_left']
    exact ⟨hr, by rw [hr]; exact hpend⟩
  · simp only [List.drop_left']
    exact ⟨hr, by rw [hr]; exact hpend⟩

end ConsSys

/-! ## A failed copy loses a byte -/

/-- A console with nothing typed, and every process running and in no read. -/
def ConsSys.fresh : ConsSys NPROC where
  cons := { buf := fun _ => 0, r := 0, w := 0, e := 0 }
  proc _ := { state := .running, killed := false, call := none, ret := 0 }
  committed := []
  delivered := []

/-- The reader of the run below. -/
def reader : Fin NPROC := ⟨0, NPROC_pos⟩

/-- The user types `a` and Return, committing `a\n`.  A `read` into an unmapped
buffer takes `a` out of the ring, fails to copy it and returns 0; the next
`read`, into good memory, returns the `\n`.  Nothing committed is left to read,
yet `a` never reached the user. -/
theorem copyout_failure_loses_input :
    ∃ s, Reachable ConsSys.Init ConsSys.Next s ∧ s.cons.r = s.cons.w ∧
      s.committed = [ch 'a', ch '\n'] ∧ s.delivered = [ch '\n'] ∧ (s.proc reader).ret = 1 := by
  have hrun : (exec ConsSys.step ConsSys.fresh
      [.intr (ch 'a'), .intr (ch '\r'), .read reader ⟨fun _ => none, fun _ => false⟩ 0 10,
        .read reader ⟨fun _ => some fun _ => 0, fun _ => true⟩ 0 10]).map (fun s =>
      decide (s.cons.r = s.cons.w ∧ s.committed = [ch 'a', ch '\n'] ∧
        s.delivered = [ch '\n'] ∧ (s.proc reader).ret = 1)) = some true := by
    decide +kernel
  obtain ⟨s, hs, hp⟩ := Reachable.exists_of_exec (fun _ _ _ h => h) hrun
  have hinit : ConsSys.fresh.Init := ⟨rfl, rfl, rfl, rfl, fun _ => rfl⟩
  exact ⟨s, hs.of_eq hinit, of_decide_eq_true hp⟩

end Xv6.Console
