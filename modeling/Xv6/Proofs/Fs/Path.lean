import Xv6.Fs.Dir
import Xv6.Proofs.Fs.Inode

/-!
# Path names

`namex` of `kernel/fs.c` is `dirlookup` folded over the components of the
path.  The components are the pieces of the path between its slashes that
are not empty, each cut to `DIRSIZ` bytes (`components`, from `splitOn`).
`skipelem` takes them off one at a time (`skipelem_eq_some`), and consumes at
least one byte for each, so the loop's fuel `path.length + 1` is never used
up.

The fold is `walk`: at each component the directory it is in is probed under
its lock (`locked`, `probe`: it must be a directory, and the component is
looked up in it), and the directory's reference is dropped.  `nameiparent`
walks to the directory that holds the last component and checks that it is a
directory (`walkParent`).  The model has no sleep-locks; `locked` brackets
what the source does while it holds one, so that every lock `namex` takes is
released by the step that takes it.

Each call moves references in the inode table only as its result says:
`iget` and `idup` add one to the slot they return, `iput` takes one away,
and everything else leaves the counts alone (`SameRefs`).  A step of the walk
takes a reference to the next inode and drops the one to the current inode,
so a walk trades the reference it starts with for one to the inode it returns
(`walk_refs`), and `namei` ends with one reference more, on its result, and
none elsewhere.
-/

namespace Xv6

open CString StateExcept

/-! ## The components of a path -/

/-- The maximal runs of bytes other than `'/'` in a path: the pieces between
its slashes that are not empty. -/
def runs (path : List UInt8) : List (List UInt8) :=
  (path.splitOn slash).filter fun piece => !piece.isEmpty

/-- The components of a path: its runs, each cut to `DIRSIZ` bytes. -/
def components (path : List UInt8) : List (List UInt8) := (runs path).map (·.take DIRSIZ)

theorem runs_nil : runs [] = [] := rfl

theorem runs_slash_cons (l : List UInt8) : runs (slash :: l) = runs l := by
  simp [runs, List.splitOn_eq_splitOnP, List.splitOnP_cons_eq_if_modifyHead]

/-- Slashes in front of a path start no run. -/
theorem runs_dropWhile (l : List UInt8) : runs (l.dropWhile (· = slash)) = runs l := by
  induction l with
  | nil => rfl
  | cons c l ih =>
    by_cases hc : c = slash
    · rw [List.dropWhile_cons, if_pos (by simpa using hc), ih, hc, runs_slash_cons]
    · rw [List.dropWhile_cons, if_neg (by simpa using hc)]

/-- A run ends at a slash or at the end of the path. -/
theorem runs_append_of_run {w l : List UInt8} (hw : w ≠ []) (hslash : ∀ c ∈ w, c ≠ slash)
    (hl : ∀ c t, l = c :: t → c = slash) : runs (w ++ l) = w :: runs (l.dropWhile (· = slash)) := by
  have hp : ∀ c ∈ w, (c == slash) = false := fun c hc => by simpa using hslash c hc
  cases l with
  | nil =>
    simp [runs, List.splitOn_eq_splitOnP, List.splitOnP_eq_singleton hp, hw]
  | cons c t =>
    obtain rfl := hl c t rfl
    rw [runs_dropWhile, runs_slash_cons]
    simp [runs, List.splitOn_eq_splitOnP, List.splitOnP_append_cons_of_forall_mem hp, hw]

theorem skipelem_eq_none_iff (path : List UInt8) :
    skipelem path = none ↔ path.dropWhile (· = slash) = [] := by
  unfold skipelem
  dsimp only
  split
  · exact iff_of_true rfl ‹_›
  · exact iff_of_false (by simp) ‹_›

theorem components_of_skipelem_none {path : List UInt8} (h : skipelem path = none) :
    components path = [] := by
  rw [skipelem_eq_none_iff] at h
  rw [components, ← runs_dropWhile, h]
  rfl

/-- `skipelem` takes the first component off the path, consumes at least one
byte, and leaves a path that is empty or starts with a byte other than `'/'`. -/
theorem skipelem_eq_some {path rest name : List UInt8} (h : skipelem path = some (rest, name)) :
    components path = name :: components rest ∧ rest.length < path.length ∧
      ∀ c t, rest = c :: t → c ≠ slash := by
  unfold skipelem at h
  dsimp only at h
  set p₁ := path.dropWhile (· = slash) with hp₁
  split at h
  · cases h
  rename_i hne
  simp only [Option.some.injEq, Prod.mk.injEq] at h
  obtain ⟨rfl, rfl⟩ := h
  set w := p₁.takeWhile (· ≠ slash) with hw
  set p₂ := p₁.dropWhile (· ≠ slash) with hp₂
  have hsplit : p₁ = w ++ p₂ := List.takeWhile_append_dropWhile.symm
  -- the run is not empty: the first byte after the slashes is not one
  obtain ⟨a, t, hat⟩ : ∃ a t, p₁ = a :: t := List.exists_cons_of_ne_nil hne
  have ha : a ≠ slash := by
    have := List.head_dropWhile_not (fun x => decide (x = slash)) (hp₁ ▸ hne)
    simp only [← hp₁, hat, List.head_cons, decide_eq_false_iff_not] at this
    exact this
  have hwne : w ≠ [] := by
    rw [hw, hat, List.takeWhile_cons, if_pos (by simpa using ha)]
    exact List.cons_ne_nil _ _
  have hslash : ∀ c ∈ w, c ≠ slash := fun c hc => by
    simpa using List.mem_takeWhile_imp hc
  -- what follows the run starts with a slash
  have hnext : ∀ c t', p₂ = c :: t' → c = slash := by
    intro c t' hct
    have hne₂ : p₂ ≠ [] := by rw [hct]; exact List.cons_ne_nil _ _
    have := List.head_dropWhile_not (fun x => decide (x ≠ slash)) (hp₂ ▸ hne₂)
    simp only [← hp₂, hct, List.head_cons, decide_eq_false_iff_not, not_not] at this
    exact this
  refine ⟨?_, ?_, ?_⟩
  · rw [components, components, ← runs_dropWhile path, ← hp₁, hsplit,
      runs_append_of_run hwne hslash hnext]
    rfl
  · have h₁ : (p₂.dropWhile (· = slash)).length ≤ p₂.length := List.length_dropWhile_le _ _
    have h₂ : p₁.length ≤ path.length := List.length_dropWhile_le _ _
    have h₃ : p₁.length = w.length + p₂.length := by rw [hsplit, List.length_append]
    have h₄ : 0 < w.length := List.length_pos_of_ne_nil hwne
    omega
  · intro c t' hct
    have hne₃ : p₂.dropWhile (· = slash) ≠ [] := by rw [hct]; exact List.cons_ne_nil _ _
    have := List.head_dropWhile_not (fun x => decide (x = slash)) hne₃
    simp only [hct, List.head_cons, decide_eq_false_iff_not] at this
    exact this

/-- A path that is empty or starts with a byte other than `'/'` has no
component exactly when it is empty. -/
theorem components_eq_nil_iff {path : List UInt8} (h : ∀ c t, path = c :: t → c ≠ slash) :
    components path = [] ↔ path = [] := by
  constructor
  · intro hc
    cases hsk : skipelem path with
    | none =>
      rw [skipelem_eq_none_iff] at hsk
      cases path with
      | nil => rfl
      | cons c t =>
        rw [List.dropWhile_cons, if_neg (by simpa using h c t rfl)] at hsk
        cases hsk
    | some res =>
      rw [(skipelem_eq_some hsk).1] at hc
      cases hc
  · rintro rfl
    rfl

/-- Each component takes at least one byte of the path. -/
theorem length_components_le : ∀ n (path : List UInt8), path.length = n →
    (components path).length ≤ path.length := by
  intro n
  induction n using Nat.strong_induction_on with
  | _ n ih =>
    intro path hn
    cases hsk : skipelem path with
    | none => simp [components_of_skipelem_none hsk]
    | some res =>
      obtain ⟨rest, name⟩ := res
      obtain ⟨hc, hlt, -⟩ := skipelem_eq_some hsk
      have := ih rest.length (by omega) rest rfl
      rw [hc, List.length_cons]
      omega

/-! ## `namex` as a fold -/

/-- `m` run holding the lock of `ip`, as the source brackets it: `ilock`, `m`,
`iunlock`. -/
def locked {α : Type} (ip : Fin NINODE) (m : FsM α) : FsM α := do
  ilock ip
  let r ← m
  iunlock ip
  return r

/-- What `namex` does at a component while it holds the lock of `ip`: `ip`
must be a directory, and the component is looked up in it. -/
def probe (ip : Fin NINODE) (name : List UInt8) : FsM (Option (Fin NINODE)) := do
  if (← slot ip).din.type ≠ T_DIR then return none
  return (← dirlookup ip name).map Prod.fst

/-- `dirlookup` folded over the components from `ip`: each is looked up in the
directory it is in, under that directory's lock, whose reference is then
dropped. -/
def walk : Fin NINODE → List (List UInt8) → FsM (Option (Fin NINODE))
  | ip, [] => return some ip
  | ip, name :: cs => do
    let r ← locked ip (probe ip name)
    iput ip
    match r with
    | none => return none
    | some next => walk next cs

/-- Whether `d` is a directory, read under its lock. -/
def isDir (d : Fin NINODE) : FsM Bool := locked d (return (← slot d).din.type == T_DIR)

/-- The walk of `nameiparent`: to the directory that holds the last component,
which must itself be a directory; nothing when there is no component. -/
def walkParent (ip : Fin NINODE) (cs : List (List UInt8)) : FsM (Option (Fin NINODE)) :=
  if cs = [] then do
    iput ip
    return none
  else do
    match ← walk ip cs.dropLast with
    | none => return none
    | some d =>
      if (← isDir d) then return some d
      else
        iput d
        return none

/-- Where `namex` starts: a new reference to the root for a path that starts
with `'/'`, else to the working directory. -/
def start (cwd : Fin NINODE) (path : List UInt8) : FsM (Fin NINODE) :=
  if path.headD 0 = slash then iget ROOTINO else idup cwd

theorem namexLoop_walk : ∀ fuel ip path name, (components path).length < fuel →
    Prod.fst <$> namexLoop false fuel ip path name = walk ip (components path) := by
  intro fuel
  induction fuel with
  | zero => intro _ _ _ h; omega
  | succ fuel ih =>
    intro ip path name hfuel
    rw [namexLoop]
    cases hsk : skipelem path with
    | none =>
      rw [components_of_skipelem_none hsk]
      simp [walk]
    | some res =>
      obtain ⟨rest, c⟩ := res
      obtain ⟨hc, hlt, -⟩ := skipelem_eq_some hsk
      rw [hc] at hfuel ⊢
      simp only [walk, locked, probe, iunlockput, bind_assoc, map_bind]
      congr 1; funext _
      congr 1; funext d
      by_cases hd : d.din.type = T_DIR
      · simp only [ne_eq, hd, not_true_eq_false, if_false, Bool.false_eq_true, false_and,
          map_bind, bind_assoc, pure_bind]
        congr 1; funext r
        cases r with
        | none => simp
        | some res =>
          obtain ⟨next, off⟩ := res
          simp only [map_bind, Option.map_some]
          -- the rest of the path has one component fewer
          rw [ih next rest c (by simpa using hfuel)]
      · simp only [ne_eq, hd, not_false_eq_true, if_true]
        simp

theorem walkParent_single (ip : Fin NINODE) (name : List UInt8) :
    walkParent ip [name] = (do
      if (← isDir ip) then return some ip
      else
        iput ip
        return none) := by
  simp [walkParent, walk]

theorem walkParent_cons (ip : Fin NINODE) (name : List UInt8) {cs : List (List UInt8)}
    (hcs : cs ≠ []) :
    walkParent ip (name :: cs) = (do
      let r ← locked ip (probe ip name)
      iput ip
      match r with
      | none => return none
      | some next => walkParent next cs) := by
  rw [walkParent, if_neg (List.cons_ne_nil _ _), List.dropLast_cons_of_ne_nil hcs, walk]
  simp only [bind_assoc]
  congr 1; funext r
  congr 1; funext _
  cases r with
  | none => simp
  | some next => simp [walkParent, if_neg hcs]

/-- `namex` for `nameiparent` is `walkParent` over the components, and what it
leaves in `name` beside a directory is the last component. -/
theorem namexLoop_walkParent : ∀ fuel ip path name, (components path).length < fuel →
    (fun r => r.1.map (·, r.2)) <$> namexLoop true fuel ip path name =
      (fun r => r.map (·, (components path).getLast?.getD [])) <$>
        walkParent ip (components path) := by
  intro fuel
  induction fuel with
  | zero => intro _ _ _ h; omega
  | succ fuel ih =>
    intro ip path name hfuel
    rw [namexLoop]
    cases hsk : skipelem path with
    | none =>
      rw [components_of_skipelem_none hsk]
      simp [walkParent]
    | some res =>
      obtain ⟨rest, c⟩ := res
      obtain ⟨hc, hlt, hstart⟩ := skipelem_eq_some hsk
      rw [hc] at hfuel ⊢
      by_cases hrest : rest = []
      · -- the last component: `ip` is the parent, if it is a directory
        subst hrest
        rw [show components [] = [] from rfl, walkParent_single]
        simp only [isDir, locked, iunlockput, bind_assoc, map_bind]
        congr 1; funext _
        congr 1; funext d
        by_cases hd : d.din.type = T_DIR
        · simp [hd]
        · have hd₁ : d.din.type ≠ 1 := hd
          simp only [ne_eq, hd, not_false_eq_true, if_true]
          simp [hd₁]
      · -- more components follow: look the next one up, as `walk` does
        have hne : components rest ≠ [] := fun h => hrest ((components_eq_nil_iff hstart).mp h)
        obtain ⟨c', cs', hcs⟩ := List.exists_cons_of_ne_nil hne
        rw [walkParent_cons ip c hne]
        simp only [locked, probe, iunlockput, bind_assoc, map_bind]
        congr 1; funext _
        congr 1; funext d
        by_cases hd : d.din.type = T_DIR
        · simp only [ne_eq, hd, not_true_eq_false, if_false, hrest, and_false,
            map_bind, bind_assoc, pure_bind]
          congr 1; funext r
          cases r with
          | none => simp
          | some res =>
            obtain ⟨next, off⟩ := res
            simp only [map_bind, Option.map_some]
            rw [ih next rest c (by simpa using hfuel), hcs, List.getLast?_cons_cons]
        · simp only [ne_eq, hd, not_false_eq_true, if_true]
          simp

theorem namex_eq (cwd : Fin NINODE) (path : List UInt8) (b : Bool) :
    namex cwd path b = start cwd path >>= fun ip => namexLoop b (path.length + 1) ip path [] := by
  unfold namex start
  dsimp only
  split <;> rfl

theorem namei_eq (cwd : Fin NINODE) (path : List UInt8) :
    namei cwd path = start cwd path >>= fun ip => walk ip (components path) := by
  have hfuel : (components path).length < path.length + 1 :=
    Nat.lt_succ_of_le (length_components_le _ path rfl)
  rw [namei, namex_eq, bind_assoc]
  congr 1; funext ip
  rw [← namexLoop_walk _ ip path [] hfuel, map_eq_pure_bind]

theorem nameiparent_eq (cwd : Fin NINODE) (path : List UInt8) :
    (fun r => r.1.map (·, r.2)) <$> nameiparent cwd path =
      start cwd path >>= fun ip =>
        (fun r => r.map (·, (components path).getLast?.getD [])) <$> walkParent ip (components path) := by
  have hfuel : (components path).length < path.length + 1 :=
    Nat.lt_succ_of_le (length_components_le _ path rfl)
  rw [nameiparent, namex_eq, map_bind]
  congr 1; funext ip
  exact namexLoop_walkParent _ ip path [] hfuel

/-! ## References

Only `iget`, `idup` and `iput` change a reference count; every other call of
`namex` keeps them (`SameRefs`), by the frame rules of `Xv6.Lib.StateExcept`. -/

/-- `s'` has the reference counts of `s`. -/
def SameRefs (s s' : Fs) : Prop := ∀ j, (s'.inode j).ref = (s.inode j).ref

instance : IsPreorder Fs SameRefs where
  refl _ _ := rfl
  trans _ _ _ h₁ h₂ j := (h₂ j).trans (h₁ j)

theorem keeps_slot (ip : Fin NINODE) : Keeps SameRefs (slot ip) :=
  keeps_bind keeps_get fun _ => keeps_pure _

theorem keeps_modifySlot (ip : Fin NINODE) {f : Inode → Inode} (hf : ∀ x, (f x).ref = x.ref) :
    Keeps SameRefs (modifySlot ip f) :=
  keeps_modify fun s j => by
    rw [Fs.ref_setInode]
    split
    · next h => rw [h, hf]
    · rfl

theorem keeps_modifyDin (ip : Fin NINODE) (f : Dinode → Dinode) : Keeps SameRefs (modifyDin ip f) :=
  keeps_modifySlot ip fun _ => rfl

theorem keeps_iupdate (ip : Fin NINODE) : Keeps SameRefs (iupdate ip) :=
  keeps_modify fun _ _ => rfl

theorem keeps_balloc : Keeps SameRefs balloc := by
  intro s b s' h
  simp only [balloc, StateT.run_bind, StateT.run_get, pure_bind] at h
  split at h
  · rw [run_pure_eq_ok] at h
    rw [← h.2]
    exact refl_of SameRefs s
  · simp only [StateT.run_bind, StateT.run_set, pure_bind, run_pure_eq_ok] at h
    rw [← h.2]
    exact fun _ => rfl

theorem keeps_bmap (ip : Fin NINODE) (bn : Nat) : Keeps SameRefs (bmap ip bn) := by
  unfold bmap
  -- each branch allocates through `balloc` and records the block in the dinode
  have halloc : ∀ (m : List Nat → List Nat), Keeps SameRefs (do
      if !(← balloc) then return false
      modifyDin ip fun din => { din with mapped := m din.mapped }
      return true : FsM Bool) := fun _ =>
    keeps_bind keeps_balloc fun _ =>
      keeps_ite (keeps_pure _) (keeps_bind (keeps_modifyDin _ _) fun _ => keeps_pure _)
  refine keeps_ite (keeps_bind (keeps_slot ip) fun _ => keeps_ite (keeps_pure _) (halloc _))
    (keeps_ite ?_ (keeps_throw _))
  refine keeps_bind (keeps_slot ip) fun _ => ?_
  dsimp only
  -- the indirect block is allocated first when there is none
  have hrest : Keeps SameRefs (do
      if bn ∈ (← slot ip).din.mapped then return true
      if !(← balloc) then return false
      modifyDin ip fun din => { din with mapped := bn :: din.mapped }
      return true : FsM Bool) :=
    keeps_bind (keeps_slot ip) fun _ => keeps_ite (keeps_pure _) (halloc _)
  refine keeps_ite (keeps_bind keeps_balloc fun _ => keeps_ite (keeps_pure _) ?_) hrest
  exact keeps_bind (keeps_modifyDin _ _) fun _ => hrest

theorem keeps_readLoop (ip : Fin NINODE) (n : Nat) :
    ∀ fuel off acc, Keeps SameRefs (readLoop ip n fuel off acc) := by
  intro fuel
  induction fuel with
  | zero => exact fun _ _ => keeps_pure _
  | succ fuel ih =>
    intro off acc
    exact keeps_ite (keeps_bind (keeps_bmap ip _) fun _ => keeps_ite (keeps_pure _)
      (keeps_bind (keeps_slot ip) fun _ => ih _ _)) (keeps_pure _)

theorem keeps_readi (ip : Fin NINODE) (off n : Nat) : Keeps SameRefs (readi ip off n) :=
  keeps_bind (keeps_slot ip) fun _ => keeps_ite (keeps_pure _) (keeps_readLoop ip _ _ _ _)

theorem keeps_ilock (ip : Fin NINODE) : Keeps SameRefs (ilock ip) := by
  unfold ilock
  refine keeps_bind (keeps_slot ip) fun _ => ?_
  dsimp only
  -- the dinode is read in when the slot is not valid
  have hread : ∀ sl : Inode, Keeps SameRefs (if !sl.valid then do
      let din := (← get).dinode sl.inum
      modifySlot ip fun slot => { slot with din, valid := true }
      if din.type = 0 then throw "ilock: no type"
    else pure () : FsM Unit) := fun _ =>
    keeps_ite (keeps_bind keeps_get fun _ => keeps_bind (keeps_modifySlot ip fun _ => rfl) fun _ =>
      keeps_ite (keeps_throw _) (keeps_pure _)) (keeps_pure _)
  exact keeps_ite (keeps_bind (keeps_throw _) fun _ => hread _) (hread _)

theorem keeps_iunlock (ip : Fin NINODE) : Keeps SameRefs (iunlock ip) :=
  keeps_bind (keeps_slot ip) fun _ => keeps_ite (keeps_throw _) (keeps_pure _)

/-- `iget` adds one reference, to the slot it returns. -/
theorem iget_refs {inum : Nat} {s s' : Fs} {ip : Fin NINODE} (h : (iget inum).run s = .ok (ip, s'))
    (j : Fin NINODE) : (s'.inode j).ref = (s.inode j).ref + if j = ip then 1 else 0 := by
  simp only [iget, modifySlot, StateT.run_bind, StateT.run_get, pure_bind] at h
  split at h
  · -- a referenced slot already holds the inode
    simp only [StateT.run_bind, StateT.run_modify, pure_bind, run_pure_eq_ok] at h
    obtain ⟨rfl, rfl⟩ := h
    rw [Fs.ref_setInode]
    split <;> simp_all
  · split at h
    · simp at h
    · -- a free slot is recycled with one reference
      next ip' hfree =>
      have hzero := List.find?_some hfree
      simp only [decide_eq_true_eq] at hzero
      simp only [StateT.run_bind, StateT.run_modify, pure_bind, run_pure_eq_ok] at h
      obtain ⟨rfl, rfl⟩ := h
      rw [Fs.ref_setInode]
      split <;> simp_all

/-- `idup` adds one reference, to its argument. -/
theorem idup_refs {ip ip' : Fin NINODE} {s s' : Fs} (h : (idup ip).run s = .ok (ip', s'))
    (j : Fin NINODE) : (s'.inode j).ref = (s.inode j).ref + if j = ip' then 1 else 0 := by
  simp only [idup, modifySlot, StateT.run_bind, StateT.run_modify, pure_bind, run_pure_eq_ok] at h
  obtain ⟨rfl, rfl⟩ := h
  rw [Fs.ref_setInode]
  split <;> simp_all

/-- `iput` takes one reference away, from its argument, whether or not it
frees the inode. -/
theorem iput_refs {ip : Fin NINODE} {s s' : Fs} (h : (iput ip).run s = .ok ((), s'))
    (j : Fin NINODE) : (s'.inode j).ref = (s.inode j).ref - if j = ip then 1 else 0 := by
  obtain ⟨sl, s₁, hslot, h⟩ := run_bind_eq_ok.mp h
  -- freeing the inode truncates it and writes it back, with the counts as they were
  have hfree : Keeps SameRefs (do
      itrunc ip
      modifyDin ip fun din => { din with type := 0 }
      iupdate ip
      modifySlot ip fun slot => { slot with valid := false } : FsM Unit) := by
    refine keeps_bind ?_ fun _ => keeps_bind (keeps_modifyDin _ _) fun _ =>
      keeps_bind (keeps_iupdate _) fun _ => keeps_modifySlot _ fun _ => rfl
    exact keeps_bind (keeps_slot ip) fun _ =>
      keeps_bind (keeps_modify fun _ _ => rfl) fun _ =>
        keeps_bind (keeps_modifyDin _ _) fun _ => keeps_iupdate _
  obtain ⟨s₂, hkeep, hdrop⟩ : ∃ s₂, SameRefs s s₂ ∧
      (modifySlot ip fun slot => { slot with ref := slot.ref - 1 }).run s₂ = .ok ((), s') := by
    have hs₁ : SameRefs s s₁ := keeps_slot ip s sl s₁ hslot
    dsimp only at h
    split at h
    · simp only [← bind_assoc] at h
      obtain ⟨u, s₂, hrun, hdrop⟩ := run_bind_eq_ok.mp h
      exact ⟨s₂, trans_of SameRefs hs₁ (hfree s₁ u s₂ hrun), hdrop⟩
    · exact ⟨s₁, hs₁, h⟩
  simp only [modifySlot, StateT.run_modify, pure_eq_ok, Except.ok.injEq, Prod.mk.injEq] at hdrop
  rw [← hdrop.2, Fs.ref_setInode, ← hkeep j]
  split <;> simp_all

/-- The loop of `dirlookup` adds one reference, to the inode it finds. -/
theorem dirlookupLoop_refs (dp : Fin NINODE) (name : List UInt8) :
    ∀ fuel off {s s' : Fs} {r : Option (Fin NINODE × Nat)},
      (dirlookupLoop dp name fuel off).run s = .ok (r, s') →
      ∀ j, (s'.inode j).ref = (s.inode j).ref + if some j = r.map Prod.fst then 1 else 0 := by
  intro fuel
  induction fuel with
  | zero =>
    intro off s s' r h j
    simp only [dirlookupLoop, run_pure_eq_ok] at h
    obtain ⟨rfl, rfl⟩ := h
    simp
  | succ fuel ih =>
    intro off s s' r h j
    obtain ⟨sl, s₁, hslot, h⟩ := run_bind_eq_ok.mp h
    have hs₁ := keeps_slot dp s sl s₁ hslot j
    dsimp only at h
    split at h
    · -- an entry is read; the read moves no reference
      obtain ⟨de, s₂, hread, h⟩ := run_bind_eq_ok.mp h
      have hs₂ := keeps_readi dp _ _ s₁ de s₂ hread j
      split at h
      · simp at h
      · split at h
        · -- the entry names the inode: a new reference to it
          obtain ⟨ip, s₃, hget, h⟩ := run_bind_eq_ok.mp h
          rw [run_pure_eq_ok] at h
          obtain ⟨rfl, rfl⟩ := h
          rw [iget_refs hget j, hs₂, hs₁]
          simp
        · rw [ih _ h j, hs₂, hs₁]
    · rw [run_pure_eq_ok] at h
      obtain ⟨rfl, rfl⟩ := h
      simp [hs₁]

theorem dirlookup_refs {dp : Fin NINODE} {name : List UInt8} {s s' : Fs}
    {r : Option (Fin NINODE × Nat)} (h : (dirlookup dp name).run s = .ok (r, s')) (j : Fin NINODE) :
    (s'.inode j).ref = (s.inode j).ref + if some j = r.map Prod.fst then 1 else 0 := by
  obtain ⟨sl, s₁, hslot, h⟩ := run_bind_eq_ok.mp h
  dsimp only at h
  split at h
  · simp at h
  · rw [dirlookupLoop_refs dp name _ _ h j, keeps_slot dp s sl s₁ hslot j]

theorem probe_refs {ip : Fin NINODE} {name : List UInt8} {s s' : Fs} {r : Option (Fin NINODE)}
    (h : (probe ip name).run s = .ok (r, s')) (j : Fin NINODE) :
    (s'.inode j).ref = (s.inode j).ref + if some j = r then 1 else 0 := by
  obtain ⟨sl, s₁, hslot, h⟩ := run_bind_eq_ok.mp h
  have hs₁ := keeps_slot ip s sl s₁ hslot j
  split at h
  · rw [run_pure_eq_ok] at h
    obtain ⟨rfl, rfl⟩ := h
    simp [hs₁]
  · obtain ⟨r', s₂, hlook, h⟩ := run_bind_eq_ok.mp h
    rw [run_pure_eq_ok] at h
    obtain ⟨rfl, rfl⟩ := h
    rw [dirlookup_refs hlook j, hs₁]

/-- What runs under `locked` runs between two states with the counts of the
first and the last. -/
theorem locked_run {α : Type} {ip : Fin NINODE} {m : FsM α} {s s' : Fs} {a : α}
    (h : (locked ip m).run s = .ok (a, s')) :
    ∃ s₁ s₂, SameRefs s s₁ ∧ m.run s₁ = .ok (a, s₂) ∧ SameRefs s₂ s' := by
  obtain ⟨u₁, s₁, hlock, h⟩ := run_bind_eq_ok.mp h
  obtain ⟨a', s₂, hm, h⟩ := run_bind_eq_ok.mp h
  obtain ⟨u₂, s₃, hunlock, h⟩ := run_bind_eq_ok.mp h
  rw [run_pure_eq_ok] at h
  obtain ⟨rfl, rfl⟩ := h
  exact ⟨s₁, s₂, keeps_ilock ip s _ s₁ hlock, hm, keeps_iunlock ip s₂ _ s₃ hunlock⟩

/-- A walk drops the reference to the inode it starts from and ends with one
on the inode it returns: the references it takes on the way are dropped by
the steps after them. -/
theorem walk_refs : ∀ (cs : List (List UInt8)) {ip : Fin NINODE} {s s' : Fs}
    {r : Option (Fin NINODE)}, (walk ip cs).run s = .ok (r, s') → ∀ j,
      (s'.inode j).ref = (s.inode j).ref - (if j = ip then 1 else 0) + if some j = r then 1 else 0 := by
  intro cs
  induction cs with
  | nil =>
    intro ip s s' r h j
    rw [walk, run_pure_eq_ok] at h
    obtain ⟨rfl, rfl⟩ := h
    simp
  | cons name cs ih =>
    intro ip s s' r h j
    obtain ⟨r₀, s₁, hprobe, h⟩ := run_bind_eq_ok.mp h
    obtain ⟨u, s₂, hput, h⟩ := run_bind_eq_ok.mp h
    -- the probe adds the reference to the next inode, `iput` drops the current one
    have hs₁ : (s₁.inode j).ref = (s.inode j).ref + if some j = r₀ then 1 else 0 := by
      obtain ⟨t₁, t₂, ht₁, hrun, ht₂⟩ := locked_run hprobe
      rw [ht₂ j, probe_refs hrun j, ht₁ j]
    have hs₂ := iput_refs hput j
    cases r₀ with
    | none =>
      rw [run_pure_eq_ok] at h
      obtain ⟨rfl, rfl⟩ := h
      simp only [reduceCtorEq, if_false] at hs₁ ⊢
      omega
    | some next =>
      rw [ih h j]
      simp only [Option.some.injEq] at hs₁
      omega

theorem start_refs {cwd : Fin NINODE} {path : List UInt8} {s s' : Fs} {ip : Fin NINODE}
    (h : (start cwd path).run s = .ok (ip, s')) (j : Fin NINODE) :
    (s'.inode j).ref = (s.inode j).ref + if j = ip then 1 else 0 := by
  unfold start at h
  split at h
  · exact iget_refs h j
  · exact idup_refs h j

theorem keeps_isDir (d : Fin NINODE) : Keeps SameRefs (isDir d) :=
  keeps_bind (keeps_ilock d) fun _ =>
    keeps_bind (keeps_bind (keeps_slot d) fun _ => keeps_pure _) fun _ =>
      keeps_bind (keeps_iunlock d) fun _ => keeps_pure _

/-- The walk of `nameiparent` moves the references as `walk` does. -/
theorem walkParent_refs {cs : List (List UInt8)} {ip : Fin NINODE} {s s' : Fs}
    {r : Option (Fin NINODE)} (h : (walkParent ip cs).run s = .ok (r, s')) (j : Fin NINODE) :
    (s'.inode j).ref = (s.inode j).ref - (if j = ip then 1 else 0) + if some j = r then 1 else 0 := by
  unfold walkParent at h
  split at h
  · -- no component: the start is dropped
    obtain ⟨u, s₁, hput, h⟩ := run_bind_eq_ok.mp h
    rw [run_pure_eq_ok] at h
    obtain ⟨rfl, rfl⟩ := h
    rw [iput_refs hput j]
    simp
  · obtain ⟨r₁, s₁, hwalk, h⟩ := run_bind_eq_ok.mp h
    have hs₁ := walk_refs _ hwalk j
    split at h
    · rw [run_pure_eq_ok] at h
      obtain ⟨rfl, rfl⟩ := h
      simpa using hs₁
    · next d =>
      obtain ⟨b, s₂, hdir, h⟩ := run_bind_eq_ok.mp h
      have hs₂ := keeps_isDir d s₁ b s₂ hdir j
      split at h
      · rw [run_pure_eq_ok] at h
        obtain ⟨rfl, rfl⟩ := h
        rw [hs₂, hs₁]
      · -- the last directory is not one: its reference is dropped too
        obtain ⟨u, s₃, hput, h⟩ := run_bind_eq_ok.mp h
        rw [run_pure_eq_ok] at h
        obtain ⟨rfl, rfl⟩ := h
        rw [iput_refs hput j, hs₂, hs₁]
        simp only [Option.some.injEq, reduceCtorEq, if_false]
        omega

/-- A run of `nameiparent` is a run of `start` and one of `walkParent`; beside a
directory it leaves the last component in `name`. -/
theorem nameiparent_run {cwd : Fin NINODE} {path : List UInt8} {s s' : Fs}
    {r : Option (Fin NINODE) × List UInt8} (h : (nameiparent cwd path).run s = .ok (r, s')) :
    ∃ ip s₁, (start cwd path).run s = .ok (ip, s₁) ∧
      (walkParent ip (components path)).run s₁ = .ok (r.1, s') ∧
      ∀ d, r.1 = some d → (components path).getLast? = some r.2 := by
  have hmap : ((fun r => r.1.map (·, r.2)) <$> nameiparent cwd path).run s =
      .ok (r.1.map (·, r.2), s') := by
    rw [StateT.run_map, h]
    rfl
  rw [nameiparent_eq] at hmap
  obtain ⟨ip, s₁, hstart, hmap⟩ := run_bind_eq_ok.mp hmap
  obtain ⟨r', hwalk, hr'⟩ := run_map_eq_ok hmap
  -- the directory is the first part of each pair
  have hfst : r' = r.1 := by
    simpa [Option.map_map, Function.comp_def] using congrArg (Option.map Prod.fst) hr'
  subst hfst
  refine ⟨ip, s₁, hstart, hwalk, fun d hd => ?_⟩
  -- a walk over no component returns nothing
  have hne : components path ≠ [] := by
    intro hnil
    rw [hnil, walkParent, if_pos rfl] at hwalk
    obtain ⟨u, s₂, -, hwalk⟩ := run_bind_eq_ok.mp hwalk
    rw [run_pure_eq_ok] at hwalk
    rw [← hwalk.1] at hd
    cases hd
  rw [hd] at hr'
  simp only [Option.map_some, Option.some.injEq, Prod.mk.injEq] at hr'
  rw [← hr'.2, List.getLast?_eq_some_getLast hne]
  simp

/-! ## Path resolution -/

/-- `namei` is `dirlookup` folded over the components from the root or the
working directory, and `nameiparent` the walk to the directory of the last
component, which it leaves in `name`; there is at most one component for
each byte of the path, so the loop never runs out of fuel.  A run with no
component gives no parent, and a run moves no reference but the one it
returns. -/
theorem namei_walks_components (cwd : Fin NINODE) (path : List UInt8) :
    (components path).length ≤ path.length ∧
    namei cwd path = (start cwd path >>= fun ip => walk ip (components path)) ∧
    (fun r => r.1.map (·, r.2)) <$> nameiparent cwd path =
      (start cwd path >>= fun ip =>
        (fun r => r.map (·, (components path).getLast?.getD [])) <$>
          walkParent ip (components path)) ∧
    (∀ s d n s', (nameiparent cwd path).run s = .ok ((some d, n), s') →
      (components path).getLast? = some n) ∧
    (components path = [] → ∀ s r s', (nameiparent cwd path).run s = .ok (r, s') → r.1 = none) ∧
    (∀ s r s', (namei cwd path).run s = .ok (r, s') →
      ∀ j, (s'.inode j).ref = (s.inode j).ref + if some j = r then 1 else 0) ∧
    (∀ s r s', (nameiparent cwd path).run s = .ok (r, s') →
      ∀ j, (s'.inode j).ref = (s.inode j).ref + if some j = r.1 then 1 else 0) := by
  refine ⟨length_components_le _ path rfl, namei_eq cwd path, nameiparent_eq cwd path, ?_, ?_, ?_, ?_⟩
  · intro s d n s' h
    obtain ⟨-, -, -, -, hname⟩ := nameiparent_run h
    exact hname d rfl
  · intro hnil s r s' h
    obtain ⟨ip, s₁, -, hwalk, -⟩ := nameiparent_run h
    rw [hnil, walkParent, if_pos rfl] at hwalk
    obtain ⟨u, s₂, -, hwalk⟩ := run_bind_eq_ok.mp hwalk
    exact ((run_pure_eq_ok.mp hwalk).1).symm
  · -- the start's new reference is the one the walk drops first
    intro s r s' h j
    rw [namei_eq] at h
    obtain ⟨ip, s₁, hstart, hwalk⟩ := run_bind_eq_ok.mp h
    rw [walk_refs _ hwalk j, start_refs hstart j]
    omega
  · intro s r s' h j
    obtain ⟨ip, s₁, hstart, hwalk, -⟩ := nameiparent_run h
    rw [walkParent_refs hwalk j, start_refs hstart j]
    omega

end Xv6
