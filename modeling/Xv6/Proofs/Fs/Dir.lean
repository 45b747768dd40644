import Xv6.Fs.Namespace
import Xv6.Proofs.Fs.Inode
import Xv6.Proofs.Blocks.Content

/-!
# A directory is a finite map from names to inodes

`dirlookup` and `dirlink` of `kernel/fs.c` over a directory whose content is
a sequence of 16-byte records.  A name is known by its key, the bytes of its
value cut to `DIRSIZ` (`dirKey`): `namecmp` compares keys
(`namecmp_eq_zero_iff`), and `strncpy` into `de.name` keeps the key
(`dirKey_direntName`), so the encoder and the decoder agree on names shorter
than, as long as and longer than `DIRSIZ`.

The abstract directory is a map from keys to inode numbers, `DirMap`.  The
records of a directory represent such a map when the used records have
distinct keys and name exactly its pairs (`Represents`).  Over the records,
`lookupRecs` is the scan of `dirlookup` and `freeRecs` the scan of `dirlink`;
each is proved against its loop (`dirlookupLoop_run`, `dirlinkLoop_run`) on a
directory whose blocks are all mapped (`Fs.DirOK`), where `readi` of a record
returns it and changes nothing (`readi_record`).

`dirlink` and the clearing that `sys_unlink` does are the two operations
(`DirOp`).  Each keeps `Fs.DirOK`, changes the represented map as
`DirMap.step` says, and leaves every reference count of the inode table as it
was, so `runDirOps_spec` follows by induction along any sequence of them.
After such a run, `dirlookup` and `dirlink` answer as the replayed map says
(`directory_finite_map`).  The map exists only when the used records start
with distinct keys: two used records of one key are not a map, and clearing
one of them leaves the other to be found (`duplicate_names_survive_unlink`).
-/

namespace Xv6

open CString StateExcept

/-! ## Keys -/

/-- The part of a name that `namecmp` compares and a `struct dirent` keeps:
the bytes of its value, cut to `DIRSIZ`. -/
def dirKey (name : List UInt8) : List UInt8 := (str name).take DIRSIZ

theorem namecmp_eq_zero_iff (s t : List UInt8) : namecmp s t = 0 ↔ dirKey s = dirKey t :=
  strncmp_eq_zero_iff s t DIRSIZ

@[simp] theorem length_dirent (inum : Nat) (name : List UInt8) :
    (dirent inum name).length = direntSize := by
  simp [dirent, strncpy]

/-- `de.inum` is a `ushort`. -/
theorem direntInum_dirent (inum : Nat) (name : List UInt8) :
    direntInum (dirent inum name) = inum % 2 ^ 16 := by
  simp [direntInum, dirent]
  omega

/-- The entry `dirlink` writes has the key of the name it was given. -/
theorem dirKey_direntName (inum : Nat) (name : List UInt8) :
    dirKey (direntName (dirent inum name)) = dirKey name := by
  have hname : direntName (dirent inum name) = strncpy name DIRSIZ := by
    simp [direntName, dirent]
  rw [hname, dirKey, str_strncpy, List.take_take, Nat.min_self]
  rfl

/-- The record `sys_unlink` writes over an entry is free. -/
theorem direntInum_zeros : direntInum (List.replicate direntSize 0) = 0 := by
  decide

/-! ## Records -/

/-- The record at index `i` of a directory's content. -/
def recordAt (data : List UInt8) (i : Nat) : List UInt8 :=
  (data.drop (i * direntSize)).take direntSize

theorem getElem?_recordsAux (k : Nat) (data : List UInt8) (i : Nat) :
    (recordsAux k data)[i]? = if i < k then some (recordAt data i) else none := by
  induction k generalizing data i with
  | zero => simp [recordsAux]
  | succ k ih =>
    cases i with
    | zero => simp [recordsAux, recordAt]
    | succ i =>
      have hidx : direntSize + i * direntSize = (i + 1) * direntSize := by ring
      simp only [recordsAux, List.getElem?_cons_succ, ih, recordAt, List.drop_drop, hidx,
        Nat.add_lt_add_iff_right]

theorem length_records (data : List UInt8) : (records data).length = data.length / direntSize := by
  apply Nat.le_antisymm
  · by_contra h
    have := getElem?_recordsAux (data.length / direntSize) data (data.length / direntSize)
    rw [if_neg (lt_irrefl _), ← records, List.getElem?_eq_getElem (by omega)] at this
    exact Option.some_ne_none _ this
  · by_contra h
    have := getElem?_recordsAux (data.length / direntSize) data (records data).length
    rw [if_pos (by omega), ← records, List.getElem?_eq_none le_rfl] at this
    exact Option.some_ne_none _ this.symm

theorem getElem?_records (data : List UInt8) (i : Nat) :
    (records data)[i]? = if i < data.length / direntSize then some (recordAt data i) else none :=
  getElem?_recordsAux _ data i

theorem getElem_records (data : List UInt8) {i : Nat} (h : i < (records data).length) :
    (records data)[i] = recordAt data i := by
  have := getElem?_records data i
  rw [List.getElem?_eq_getElem h, if_pos (by rw [length_records] at h; exact h)] at this
  exact Option.some.inj this

theorem length_recordAt {data : List UInt8} {i : Nat} (hi : i < (records data).length) :
    (recordAt data i).length = direntSize := by
  rw [length_records] at hi
  simp only [recordAt, List.length_take, List.length_drop]
  simp only [direntSize, DIRSIZ] at *
  omega

theorem getElem?_recordAt (data : List UInt8) (i t : Nat) :
    (recordAt data i)[t]? = if t < direntSize then data[i * direntSize + t]? else none := by
  unfold recordAt
  rw [List.getElem?_take]
  split_ifs <;> simp [List.getElem?_drop]

/-- Two records whose byte ranges meet are the same record. -/
theorem record_eq_of_mem {i j t : Nat} (ht : t < direntSize)
    (h : j * direntSize ≤ i * direntSize + t ∧ i * direntSize + t < j * direntSize + direntSize) :
    i = j := by
  simp only [direntSize, DIRSIZ] at *
  omega

theorem recordAt_overwrite {data de : List UInt8} {j : Nat} (hj : j * direntSize ≤ data.length)
    (hde : de.length = direntSize) (i : Nat) :
    recordAt (overwrite data (j * direntSize) de) i = if i = j then de else recordAt data i := by
  apply List.ext_getElem?
  intro t
  rw [getElem?_recordAt, Blocks.getElem?_overwrite hj, hde]
  by_cases hij : i = j
  · subst hij
    rw [if_pos rfl]
    by_cases ht : t < direntSize
    · rw [if_pos ht, if_pos ⟨by omega, by omega⟩, Nat.add_sub_cancel_left]
    · rw [if_neg ht, List.getElem?_eq_none (by omega)]
  · rw [if_neg hij, getElem?_recordAt]
    by_cases ht : t < direntSize
    · rw [if_pos ht, if_pos ht, if_neg fun h => hij (record_eq_of_mem ht h)]
    · rw [if_neg ht, if_neg ht]

theorem records_overwrite {data de : List UInt8} {j : Nat} (hwhole : data.length % direntSize = 0)
    (hj : j < (records data).length) (hde : de.length = direntSize) :
    records (overwrite data (j * direntSize) de) = (records data).set j de := by
  rw [length_records] at hj
  have hjle : j * direntSize + direntSize ≤ data.length := by
    simp only [direntSize, DIRSIZ] at *
    omega
  have hlen : (overwrite data (j * direntSize) de).length = data.length := by
    rw [Blocks.length_overwrite (by omega), hde]
    omega
  apply List.ext_getElem?
  intro i
  rw [getElem?_records, List.getElem?_set, getElem?_records, hlen, length_records,
    recordAt_overwrite (by omega) hde]
  by_cases hij : j = i
  · subst hij
    rw [if_pos hj, if_pos rfl, if_pos rfl, if_pos hj]
  · rw [if_neg hij, if_neg (Ne.symm hij)]

theorem records_append {data de : List UInt8} (hwhole : data.length % direntSize = 0)
    (hde : de.length = direntSize) : records (data ++ de) = records data ++ [de] := by
  have hmul : data.length / direntSize * direntSize = data.length :=
    Nat.div_mul_cancel (Nat.dvd_of_mod_eq_zero hwhole)
  have hlen : (data ++ de).length / direntSize = data.length / direntSize + 1 := by
    simp only [List.length_append, hde, direntSize, DIRSIZ] at *
    omega
  apply List.ext_getElem?
  intro i
  rw [getElem?_records, hlen, List.getElem?_append, getElem?_records, length_records]
  by_cases hi : i < data.length / direntSize
  · rw [if_pos (by omega), if_pos hi, if_pos hi]
    congr 1
    apply List.ext_getElem?
    intro t
    rw [getElem?_recordAt, getElem?_recordAt]
    by_cases ht : t < direntSize
    · rw [if_pos ht, if_pos ht, List.getElem?_append_left]
      simp only [direntSize, DIRSIZ] at *
      omega
    · rw [if_neg ht, if_neg ht]
  · rw [if_neg hi]
    by_cases hn : i = data.length / direntSize
    · subst hn
      rw [if_pos (by omega), Nat.sub_self, List.getElem?_cons_zero]
      congr 1
      apply List.ext_getElem?
      intro t
      rw [getElem?_recordAt, hmul]
      by_cases ht : t < direntSize
      · rw [if_pos ht, List.getElem?_append_right (by omega), Nat.add_sub_cancel_left]
      · rw [if_neg ht, List.getElem?_eq_none (by omega)]
    · rw [if_neg (by omega), List.getElem?_eq_none (by rw [List.length_singleton]; omega)]

/-! ## The scans -/

/-- A record is a used entry with key `k`. -/
def Hits (k de : List UInt8) : Prop := direntInum de ≠ 0 ∧ dirKey (direntName de) = k

instance (k de : List UInt8) : Decidable (Hits k de) := inferInstanceAs (Decidable (_ ∧ _))

/-- The scan of `dirlookup` over records from offset `off` on: the inode
number and the offset of the first used record with key `k`. -/
def lookupRecs (k : List UInt8) : List (List UInt8) → Nat → Option (Nat × Nat)
  | [], _ => none
  | de :: recs, off =>
    if Hits k de then some (direntInum de, off) else lookupRecs k recs (off + direntSize)

/-- The scan of `dirlink`: the offset of the first free record from `off` on,
or the end of the records. -/
def freeRecs : List (List UInt8) → Nat → Nat
  | [], off => off
  | de :: recs, off => if direntInum de = 0 then off else freeRecs recs (off + direntSize)

theorem lookupRecs_eq_none_iff {k : List UInt8} {recs : List (List UInt8)} {off : Nat} :
    lookupRecs k recs off = none ↔ ∀ de ∈ recs, ¬ Hits k de := by
  induction recs generalizing off with
  | nil => simp [lookupRecs]
  | cons de recs ih =>
    by_cases hde : Hits k de
    · simp [lookupRecs, hde]
    · simp [lookupRecs, hde, ih]

/-- What the scan of `dirlookup` finds is a used record with key `k` at the
offset it answers. -/
theorem lookupRecs_eq_some {k : List UInt8} {recs : List (List UInt8)} {off inum o : Nat}
    (h : lookupRecs k recs off = some (inum, o)) :
    ∃ j, ∃ hj : j < recs.length, o = off + j * direntSize ∧ Hits k recs[j] ∧
      inum = direntInum recs[j] := by
  induction recs generalizing off with
  | nil => simp [lookupRecs] at h
  | cons de recs ih =>
    by_cases hde : Hits k de
    · simp only [lookupRecs, if_pos hde, Option.some.injEq, Prod.mk.injEq] at h
      exact ⟨0, by simp, by omega, hde, h.1.symm⟩
    · rw [lookupRecs, if_neg hde] at h
      obtain ⟨j, hj, ho, hhit, hinum⟩ := ih h
      refine ⟨j + 1, by simp; omega, ?_, hhit, hinum⟩
      rw [ho, Nat.succ_mul]
      omega

/-- The scan of `dirlink` answers the offset of the first free record, or the
end of the records when none is free (past the end, `getD` reads an empty,
free record). -/
theorem freeRecs_spec (recs : List (List UInt8)) (off : Nat) :
    ∃ j ≤ recs.length, freeRecs recs off = off + j * direntSize ∧
      (∀ j' < j, direntInum (recs.getD j' []) ≠ 0) ∧ direntInum (recs.getD j []) = 0 := by
  induction recs generalizing off with
  | nil => exact ⟨0, le_rfl, by simp [freeRecs], fun j' h => absurd h (by omega), rfl⟩
  | cons de recs ih =>
    by_cases hde : direntInum de = 0
    · exact ⟨0, by simp, by simp [freeRecs, hde], fun j' h => absurd h (by omega), hde⟩
    · obtain ⟨j, hj, hoff, hused, hfree⟩ := ih (off + direntSize)
      refine ⟨j + 1, by simp; omega, ?_, fun j' hj' => ?_, by simpa using hfree⟩
      · rw [freeRecs, if_neg hde, hoff, Nat.succ_mul]
        omega
      · cases j' with
        | zero => simpa using hde
        | succ j' => simpa using hused j' (by omega)

/-- `namecmp` in the test of `dirlookup` is a test of keys. -/
theorem hits_iff (name de : List UInt8) :
    (direntInum de ≠ 0 ∧ namecmp name (direntName de) = 0) ↔ Hits (dirKey name) de := by
  rw [namecmp_eq_zero_iff, Hits, eq_comm]

/-! ## The map a directory stands for -/

/-- A directory as what it means: a map from keys to inode numbers. -/
abbrev DirMap := List UInt8 → Option Nat

/-- The used records of a directory have distinct keys and name exactly the
pairs of `M`. -/
structure Represents (recs : List (List UInt8)) (M : DirMap) : Prop where
  distinct : ∀ i j (hi : i < recs.length) (hj : j < recs.length), direntInum recs[i] ≠ 0 →
    direntInum recs[j] ≠ 0 → dirKey (direntName recs[i]) = dirKey (direntName recs[j]) → i = j
  sound : ∀ i (hi : i < recs.length), direntInum recs[i] ≠ 0 →
    M (dirKey (direntName recs[i])) = some (direntInum recs[i])
  complete : ∀ k n, M k = some n → ∃ i, ∃ hi : i < recs.length, Hits k recs[i]

section Represents

variable {recs : List (List UInt8)} {M : DirMap}

/-- No record hits a key the map lacks. -/
theorem Represents.not_hits (h : Represents recs M) {k : List UInt8} (hk : M k = none)
    (i : Nat) (hi : i < recs.length) : ¬ Hits k recs[i] := by
  intro ⟨hused, hkey⟩
  have := h.sound i hi hused
  rw [hkey, hk] at this
  simp at this

/-- The scan finds nothing for a key the map lacks. -/
theorem Represents.lookupRecs_none (h : Represents recs M) {k : List UInt8} (hk : M k = none)
    (off : Nat) : lookupRecs k recs off = none := by
  apply lookupRecs_eq_none_iff.mpr
  intro de hde hhit
  obtain ⟨i, hi, rfl⟩ := List.getElem_of_mem hde
  exact h.not_hits hk i hi hhit

/-- The scan finds, for a key of the map, a record at its offset with the
map's inode number. -/
theorem Represents.lookupRecs_some (h : Represents recs M) {k : List UInt8} {n : Nat}
    (hk : M k = some n) (off : Nat) :
    ∃ i, ∃ hi : i < recs.length, lookupRecs k recs off = some (n, off + i * direntSize) ∧
      Hits k recs[i] ∧ direntInum recs[i] = n := by
  obtain ⟨i₀, hi₀, hhit₀⟩ := h.complete k n hk
  cases hscan : lookupRecs k recs off with
  | none =>
    exact absurd hhit₀ (lookupRecs_eq_none_iff.mp hscan _ (List.getElem_mem hi₀))
  | some res =>
    obtain ⟨inum, o⟩ := res
    obtain ⟨i, hi, ho, hhit, hinum⟩ := lookupRecs_eq_some hscan
    have hn : direntInum recs[i] = n := by
      have := h.sound i hi hhit.1
      rw [hhit.2, hk] at this
      exact (Option.some.inj this).symm
    exact ⟨i, hi, by rw [ho, hinum, hn], hhit, hn⟩

/-- Writing a used record with a new key over a free one adds its pair. -/
theorem Represents.set_free (h : Represents recs M) {j : Nat} (hj : j < recs.length)
    (hfree : direntInum recs[j] = 0) {k : List UInt8} (hk : M k = none) {de : List UInt8}
    (hde : Hits k de) :
    Represents (recs.set j de) (Function.update M k (some (direntInum de))) := by
  have hold : ∀ i (hi : i < recs.length), direntInum recs[i] ≠ 0 →
      dirKey (direntName recs[i]) ≠ k := fun i hi hused hkey => h.not_hits hk i hi ⟨hused, hkey⟩
  constructor
  · intro a b ha hb hua hub hab
    simp only [List.length_set] at ha hb
    simp only [List.getElem_set] at hua hub hab
    split_ifs at hua hub hab with hja hjb hjb
    · omega
    · exact absurd (hde.2.symm.trans hab) (hold b hb hub).symm
    · exact absurd (hab.trans hde.2) (hold a ha hua)
    · exact h.distinct a b ha hb hua hub hab
  · intro a ha hua
    simp only [List.length_set] at ha
    simp only [List.getElem_set] at hua ⊢
    split_ifs at hua ⊢ with hja
    · rw [hde.2, Function.update_self]
    · rw [Function.update_of_ne (hold a ha hua)]
      exact h.sound a ha hua
  · intro k' n hk'
    by_cases hkk : k' = k
    · subst hkk
      exact ⟨j, by simpa using hj, by simpa using hde⟩
    · rw [Function.update_of_ne hkk] at hk'
      obtain ⟨i, hi, hhit⟩ := h.complete k' n hk'
      have hij : j ≠ i := by
        rintro rfl
        exact hhit.1 hfree
      exact ⟨i, by simpa using hi, by simpa [List.getElem_set, hij] using hhit⟩

/-- Appending a used record with a new key adds its pair. -/
theorem Represents.append (h : Represents recs M) {k : List UInt8} (hk : M k = none)
    {de : List UInt8} (hde : Hits k de) :
    Represents (recs ++ [de]) (Function.update M k (some (direntInum de))) := by
  have hset : (recs ++ [[]]).set recs.length de = recs ++ [de] := by
    simp
  have hfree : Represents (recs ++ [[]]) M := by
    constructor
    · intro a b ha hb hua hub hab
      simp only [List.length_append, List.length_singleton] at ha hb
      simp only [List.getElem_append] at hua hub hab
      split_ifs at hua hub hab with hla hlb
      · exact h.distinct a b hla hlb hua hub hab
      · exact (hub (by rw [List.getElem_singleton]; rfl)).elim
      · exact (hua (by rw [List.getElem_singleton]; rfl)).elim
      · exact (hua (by rw [List.getElem_singleton]; rfl)).elim
    · intro a ha hua
      simp only [List.length_append, List.length_singleton] at ha
      simp only [List.getElem_append] at hua ⊢
      split_ifs at hua ⊢ with hla
      · exact h.sound a hla hua
      · exact (hua (by rw [List.getElem_singleton]; rfl)).elim
    · intro k' n hk'
      obtain ⟨i, hi, hhit⟩ := h.complete k' n hk'
      exact ⟨i, by simp; omega, by simpa [List.getElem_append, hi] using hhit⟩
  rw [← hset]
  exact hfree.set_free (by simp) (by simp; rfl) hk hde

/-- Writing a free record over the entry of key `k` removes `k`. -/
theorem Represents.clear (h : Represents recs M) {j : Nat} (hj : j < recs.length) {k : List UInt8}
    (hhit : Hits k recs[j]) {z : List UInt8} (hz : direntInum z = 0) :
    Represents (recs.set j z) (Function.update M k none) := by
  have hother : ∀ i (hi : i < recs.length), direntInum recs[i] ≠ 0 →
      dirKey (direntName recs[i]) = k → i = j :=
    fun i hi hused hkey => h.distinct i j hi hj hused hhit.1 (hkey.trans hhit.2.symm)
  constructor
  · intro a b ha hb hua hub hab
    simp only [List.length_set] at ha hb
    simp only [List.getElem_set] at hua hub hab
    split_ifs at hua hub hab with hja hjb
    · exact absurd hz hua
    · exact absurd hz hua
    · exact absurd hz hub
    · exact h.distinct a b ha hb hua hub hab
  · intro a ha hua
    simp only [List.length_set] at ha
    simp only [List.getElem_set] at hua ⊢
    split_ifs at hua ⊢ with hja
    · exact absurd hz hua
    · have hne : dirKey (direntName recs[a]) ≠ k := fun hkey => hja (hother a ha hua hkey).symm
      rw [Function.update_of_ne hne]
      exact h.sound a ha hua
  · intro k' n hk'
    have hkk : k' ≠ k := by
      rintro rfl
      simp at hk'
    rw [Function.update_of_ne hkk] at hk'
    obtain ⟨i, hi, hhit'⟩ := h.complete k' n hk'
    have hij : j ≠ i := by
      rintro rfl
      exact hkk (hhit'.2.symm.trans hhit.2)
    exact ⟨i, by simpa using hi, by simpa [List.getElem_set, hij] using hhit'⟩

end Represents

/-- The map of a directory's records: the scan's answer for each key. -/
def recsMap (recs : List (List UInt8)) : DirMap := fun k => (lookupRecs k recs 0).map Prod.fst

/-- Records whose used entries have distinct keys represent their own map. -/
theorem represents_recsMap {recs : List (List UInt8)}
    (hd : ∀ i j (hi : i < recs.length) (hj : j < recs.length), direntInum recs[i] ≠ 0 →
      direntInum recs[j] ≠ 0 → dirKey (direntName recs[i]) = dirKey (direntName recs[j]) → i = j) :
    Represents recs (recsMap recs) := by
  refine ⟨hd, fun i hi hused => ?_, fun k n hk => ?_⟩
  · -- the scan stops at the first hit, which is record `i` by distinctness
    cases hscan : lookupRecs (dirKey (direntName recs[i])) recs 0 with
    | none =>
      exact absurd ⟨hused, rfl⟩ (lookupRecs_eq_none_iff.mp hscan _ (List.getElem_mem hi))
    | some res =>
      obtain ⟨inum, o⟩ := res
      obtain ⟨i', hi', -, hhit, hinum⟩ := lookupRecs_eq_some hscan
      have hii : i' = i := hd i' i hi' hi hhit.1 hused hhit.2
      subst hii
      simp [recsMap, hscan, hinum]
  · cases hscan : lookupRecs k recs 0 with
    | none => simp [recsMap, hscan] at hk
    | some res =>
      obtain ⟨inum, o⟩ := res
      obtain ⟨i, hi, -, hhit, -⟩ := lookupRecs_eq_some hscan
      exact ⟨i, hi, hhit⟩

/-! ## Reading and writing a directory -/

/-- A directory that the scans read without allocating: of type `T_DIR`, of
whole records, within `MAXFILE` blocks, and with every block of its content
mapped. -/
structure Fs.DirOK (s : Fs) (dp : Fin NINODE) : Prop where
  type : (s.inode dp).din.type = T_DIR
  whole : (s.inode dp).din.size % direntSize = 0
  size_le : (s.inode dp).din.size ≤ MAXFILE * BSIZE
  mapped : ∀ bn, bn * BSIZE < (s.inode dp).din.size →
    bn ∈ (s.inode dp).din.mapped ∧ (NDIRECT ≤ bn → (s.inode dp).din.indirect = true)

/-- Record `i` starts before the end of the directory exactly when it is one
of its records. -/
theorem Fs.DirOK.lt_size_iff {s : Fs} {dp : Fin NINODE} (hd : s.DirOK dp) (i : Nat) :
    i * direntSize < (s.inode dp).din.size ↔ i < (records (s.inode dp).din.data).length := by
  have hw := hd.whole
  rw [length_records]
  simp only [Dinode.size, direntSize, DIRSIZ] at *
  omega

/-- A record starting before the end of a directory ends in its block and its
block is mapped. -/
theorem Fs.DirOK.bmap_record {s : Fs} {dp : Fin NINODE} (hd : s.DirOK dp) (off : Nat)
    (hoff : off % direntSize = 0) (hlt : off < (s.inode dp).din.size) :
    (bmap dp (off / BSIZE)).run s = .ok (true, s) ∧ BSIZE - off % BSIZE ≥ direntSize := by
  have hle := hd.size_le
  have hblk := hd.mapped (off / BSIZE) (by simp only [BSIZE] at *; omega)
  refine ⟨bmap_run_of_mapped (by simp only [MAXFILE, NDIRECT, NINDIRECT, BSIZE] at *; omega)
    hblk.1 hblk.2, ?_⟩
  simp only [BSIZE, direntSize, DIRSIZ] at *
  omega

/-- `DirOK` reads only the slot's inode copy. -/
theorem Fs.DirOK.of_din {s s' : Fs} {dp : Fin NINODE} (hd : s.DirOK dp)
    (h : (s'.inode dp).din = (s.inode dp).din) : s'.DirOK dp := by
  obtain ⟨htype, hwhole, hle, hmapped⟩ := hd
  exact ⟨by rw [h]; exact htype, by rw [h]; exact hwhole, by rw [h]; exact hle,
    by rw [h]; exact hmapped⟩

/-- A directory stays `DirOK` when its slot keeps its type, its content stays
whole records within `MAXFILE` blocks, and every block of the new content
was a block of the old content or is now mapped. -/
theorem Fs.DirOK.grow {s s' : Fs} {dp : Fin NINODE} (hd : s.DirOK dp)
    (htype : (s'.inode dp).din.type = (s.inode dp).din.type)
    (hwhole : (s'.inode dp).din.size % direntSize = 0)
    (hle : (s'.inode dp).din.size ≤ MAXFILE * BSIZE)
    (hsub : ∀ x ∈ (s.inode dp).din.mapped, x ∈ (s'.inode dp).din.mapped)
    (hind : (s.inode dp).din.indirect = true → (s'.inode dp).din.indirect = true)
    (hnew : ∀ bn, bn * BSIZE < (s'.inode dp).din.size → (s.inode dp).din.size ≤ bn * BSIZE →
      bn ∈ (s'.inode dp).din.mapped ∧ (NDIRECT ≤ bn → (s'.inode dp).din.indirect = true)) :
    s'.DirOK dp := by
  refine ⟨htype.trans hd.type, hwhole, hle, fun bn hbn => ?_⟩
  by_cases hold : bn * BSIZE < (s.inode dp).din.size
  · obtain ⟨hm, hi⟩ := hd.mapped bn hold
    exact ⟨hsub bn hm, fun h => hind (hi h)⟩
  · exact hnew bn hbn (by omega)

/-- `readi` of a record of a directory returns it and changes nothing. -/
theorem readi_record {s : Fs} {dp : Fin NINODE} (hd : s.DirOK dp) {i : Nat}
    (hi : i < (records (s.inode dp).din.data).length) :
    (readi dp (i * direntSize) direntSize).run s = .ok ((records (s.inode dp).din.data)[i], s) := by
  have hsz := hd.size_le
  have hds : 0 < direntSize := by decide
  have hi' := hi
  rw [length_records] at hi'
  have hend : i * direntSize + direntSize ≤ (s.inode dp).din.size := by
    simp only [Dinode.size, direntSize, DIRSIZ] at *
    omega
  obtain ⟨hb, hroom⟩ := hd.bmap_record (i * direntSize) (by simp) (by omega)
  have h32 : (i * direntSize + direntSize) % 2 ^ 32 = i * direntSize + direntSize := by
    simp only [MAXFILE, NDIRECT, NINDIRECT, BSIZE] at hsz
    omega
  simp only [readi, slot, StateT.run_bind, StateT.run_get, StateT.run_pure, pure_eq_ok,
    ok_bind, h32]
  rw [if_neg (by omega), if_neg (by omega), getElem_records]
  exact readLoop_chunk 15 hb hds hroom hend

/-- The loop of `dirlookup` from record `i` on: the scan of the records from
there, and `iget` of the inode it finds. -/
theorem dirlookupLoop_run {s : Fs} {dp : Fin NINODE} (hd : s.DirOK dp) (name : List UInt8) :
    ∀ fuel i, (records (s.inode dp).din.data).length - i < fuel →
      (dirlookupLoop dp name fuel (i * direntSize)).run s =
        (match lookupRecs (dirKey name) ((records (s.inode dp).din.data).drop i) (i * direntSize) with
          | none => pure none
          | some (inum, off) => do return some (← iget inum, off) : FsM _).run s := by
  intro fuel
  induction fuel with
  | zero => intro i h; omega
  | succ fuel ih =>
    intro i hfuel
    set recs := records (s.inode dp).din.data with hrecs
    by_cases hi : i < recs.length
    · -- record `i` is read, and either hits or the loop goes on
      have hoff : i * direntSize < (s.inode dp).din.size := by
        have := length_records (s.inode dp).din.data
        simp only [Dinode.size, direntSize, DIRSIZ] at *
        rw [← hrecs] at this
        omega
      have hdrop : recs.drop i = recs[i] :: recs.drop (i + 1) := List.drop_eq_getElem_cons hi
      have hlen : recs[i].length = direntSize := by
        rw [show recs[i] = recordAt (s.inode dp).din.data i from getElem_records _ hi]
        exact length_recordAt hi
      simp only [dirlookupLoop, slot, StateT.run_bind, StateT.run_get, StateT.run_pure, pure_eq_ok,
        ok_bind]
      rw [if_pos hoff]
      simp only [StateT.run_bind, readi_record hd hi, ← hrecs, ok_bind, hlen, hdrop, lookupRecs]
      rw [if_neg (fun h => h rfl)]
      by_cases hhit : Hits (dirKey name) recs[i]
      · rw [if_pos ((hits_iff name _).mpr hhit), if_pos hhit]
      · rw [if_neg (fun h => hhit ((hits_iff name _).mp h)), if_neg hhit,
          show i * direntSize + direntSize = (i + 1) * direntSize by ring]
        exact ih (i + 1) (by omega)
    · -- past the last record
      have hoff : ¬ i * direntSize < (s.inode dp).din.size := by
        have := length_records (s.inode dp).din.data
        have hw := hd.whole
        simp only [Dinode.size, direntSize, DIRSIZ] at *
        rw [← hrecs] at this
        omega
      simp only [dirlookupLoop, slot, StateT.run_bind, StateT.run_get, StateT.run_pure, pure_eq_ok,
        ok_bind]
      rw [if_neg hoff, List.drop_eq_nil_of_le (show recs.length ≤ i by omega), lookupRecs]

/-- `dirlookup` on a directory: the scan of its records, and `iget` of the
inode it finds. -/
theorem dirlookup_run {s : Fs} {dp : Fin NINODE} (hd : s.DirOK dp) (name : List UInt8) :
    (dirlookup dp name).run s =
      (match lookupRecs (dirKey name) (records (s.inode dp).din.data) 0 with
        | none => pure none
        | some (inum, off) => do return some (← iget inum, off) : FsM _).run s := by
  have hloop := dirlookupLoop_run hd name ((s.inode dp).din.size + 1) 0
    (by
      have := Nat.div_le_self (s.inode dp).din.data.length direntSize
      rw [length_records]
      simp only [Dinode.size]
      omega)
  simp only [Nat.zero_mul, List.drop_zero] at hloop
  simp only [dirlookup, slot, StateT.run_bind, StateT.run_get, StateT.run_pure, pure_eq_ok,
    ok_bind]
  rw [if_neg (fun h => h hd.type)]
  exact hloop

/-- The loop of `dirlink` from record `i` on: the scan for a free record. -/
theorem dirlinkLoop_run {s : Fs} {dp : Fin NINODE} (hd : s.DirOK dp) :
    ∀ fuel i, (records (s.inode dp).din.data).length - i < fuel →
      (dirlinkLoop dp fuel (i * direntSize)).run s =
        .ok (freeRecs ((records (s.inode dp).din.data).drop i) (i * direntSize), s) := by
  intro fuel
  induction fuel with
  | zero => intro i h; omega
  | succ fuel ih =>
    intro i hfuel
    set recs := records (s.inode dp).din.data with hrecs
    have hiff := hd.lt_size_iff i
    by_cases hi : i < recs.length
    · have hdrop : recs.drop i = recs[i] :: recs.drop (i + 1) := List.drop_eq_getElem_cons hi
      have hlen : recs[i].length = direntSize := by
        rw [show recs[i] = recordAt (s.inode dp).din.data i from getElem_records _ hi]
        exact length_recordAt hi
      simp only [dirlinkLoop, slot, StateT.run_bind, StateT.run_get, StateT.run_pure, pure_eq_ok,
        ok_bind]
      rw [if_pos (hiff.mpr hi)]
      simp only [StateT.run_bind, readi_record hd hi, ← hrecs, ok_bind, hlen, hdrop, freeRecs]
      rw [if_neg (fun h => h rfl)]
      by_cases hfree : direntInum recs[i] = 0
      · rw [if_pos hfree, if_pos hfree]
        rfl
      · rw [if_neg hfree, if_neg hfree,
          show i * direntSize + direntSize = (i + 1) * direntSize by ring]
        exact ih (i + 1) (by omega)
    · simp only [dirlinkLoop, slot, StateT.run_bind, StateT.run_get, StateT.run_pure, pure_eq_ok,
        ok_bind]
      rw [if_neg (fun h => hi (hiff.mp h)), List.drop_eq_nil_of_le (show recs.length ≤ i by omega),
        freeRecs]
      rfl

/-- `writei` of a whole record at record `j` of a directory, `j` at most the
number of its records: it stores the record, or stores nothing and answers
less.  Either way the directory stays `DirOK`, and the other slots and the
slot's reference, number and `valid` stay; a record inside the directory is
always stored. -/
theorem writei_record {s : Fs} {dp : Fin NINODE} (hd : s.DirOK dp) {j : Nat}
    (hj : j ≤ (records (s.inode dp).din.data).length) {de : List UInt8}
    (hde : de.length = direntSize) :
    ∃ r s', (writei dp de (j * direntSize) direntSize).run s = .ok (r, s') ∧ s'.DirOK dp ∧
      (∀ ip, ip ≠ dp → s'.inode ip = s.inode ip) ∧
      (s'.inode dp).ref = (s.inode dp).ref ∧ (s'.inode dp).inum = (s.inode dp).inum ∧
      (s'.inode dp).valid = (s.inode dp).valid ∧
      (r = direntSize ∧
          (s'.inode dp).din.data = overwrite (s.inode dp).din.data (j * direntSize) de ∨
        r ≠ direntSize ∧ (s'.inode dp).din.data = (s.inode dp).din.data) ∧
      (j < (records (s.inode dp).din.data).length → r = direntSize) := by
  have hsz := hd.size_le
  have hw := hd.whole
  have hn := length_records (s.inode dp).din.data
  have hoff : j * direntSize ≤ (s.inode dp).din.size := by
    simp only [Dinode.size, direntSize, DIRSIZ] at *
    omega
  have hds : 0 < direntSize := by decide
  have h32 : (j * direntSize + direntSize) % 2 ^ 32 = j * direntSize + direntSize := by
    simp only [MAXFILE, NDIRECT, NINDIRECT, BSIZE, Dinode.size, direntSize, DIRSIZ] at *
    omega
  simp only [writei, slot, StateT.run_bind, StateT.run_get, StateT.run_pure, pure_eq_ok, ok_bind]
  rw [h32, if_neg (by omega)]
  by_cases hmax : j * direntSize + direntSize > MAXFILE * BSIZE
  · -- `MAXFILE` blocks of used records: `writei` refuses
    rw [if_pos hmax]
    refine ⟨-1, s, rfl, hd, fun _ _ => rfl, rfl, rfl, rfl, .inr ⟨by decide, rfl⟩, fun hlt => ?_⟩
    have hin := (hd.lt_size_iff j).mpr hlt
    simp only [Dinode.size, direntSize, DIRSIZ] at *
    omega
  rw [if_neg hmax]
  have hbn : j * direntSize / BSIZE < MAXFILE := by
    simp only [MAXFILE, NDIRECT, NINDIRECT, BSIZE, direntSize, DIRSIZ] at *
    omega
  have hroom : direntSize ≤ BSIZE - j * direntSize % BSIZE := by
    simp only [BSIZE, direntSize, DIRSIZ]
    omega
  obtain ⟨b, m, ind, nf, hb, hsub, hind, hbt⟩ := bmap_run dp s hbn
  have hloop : (writeLoop dp de direntSize direntSize (j * direntSize) 0).run s = _ :=
    writeLoop_chunk 15 hb (by decide) hroom
  simp only [StateT.run_bind, hloop]
  cases b with
  | false =>
    -- no block for the record: nothing is stored
    simp only [Bool.false_eq_true, if_false, ok_bind, iupdate, StateT.run_modify, pure_eq_ok]
    refine ⟨0, _, rfl, ?_, fun ip hip => by simp [hip], by simp, by simp, by simp,
      .inr ⟨by decide, by simp⟩, fun hlt => ?_⟩
    · apply hd.grow (by simp) (by simpa [Dinode.size] using hw) (by simpa [Dinode.size] using hsz)
        (by simpa using hsub) (by simpa using hind)
      intro bn hbn hle
      simp only [Fs.remap_inode_self, Dinode.size] at hbn hle
      omega
    · obtain ⟨hblk, -⟩ := hd.bmap_record (j * direntSize) (by simp)
        ((hd.lt_size_iff j).mpr hlt)
      rw [hb] at hblk
      simp at hblk
  | true =>
    -- the record is stored over its place
    simp only [if_true, ok_bind, iupdate, StateT.run_modify, pure_eq_ok]
    have htake : de.take direntSize = de := List.take_of_length_le (by omega)
    have hlen : (overwrite (s.inode dp).din.data (j * direntSize) de).length =
        max (s.inode dp).din.size (j * direntSize + direntSize) := by
      rw [Blocks.length_overwrite hoff, hde]
      rfl
    refine ⟨direntSize, _, rfl, ?_, fun ip hip => by simp [hip], by simp, by simp, by simp,
      .inl ⟨rfl, by simp only [Fs.setInode_inode_self, Fs.remap_inode_self, htake]⟩, fun _ => rfl⟩
    refine hd.grow (by simp) ?_ ?_ (by simpa using hsub) (by simpa using hind) ?_
    · simp only [Fs.setInode_inode_self, Fs.remap_inode_self, Dinode.size, htake, hlen]
      simp only [Dinode.size, direntSize, DIRSIZ] at hw ⊢
      omega
    · simp only [Fs.setInode_inode_self, Fs.remap_inode_self, Dinode.size, htake, hlen]
      simp only [Dinode.size] at hsz
      omega
    · -- the one new block is the block of the appended record
      intro bn hbn hle
      simp only [Fs.setInode_inode_self, Fs.remap_inode_self, Dinode.size, htake, hlen] at hbn hle ⊢
      have hbn' : bn = j * direntSize / BSIZE := by
        simp only [Dinode.size, BSIZE, direntSize, DIRSIZ] at *
        omega
      subst hbn'
      exact hbt rfl

/-! ## Linking and clearing -/

/-- Linking a name the map lacks at the offset the scan of `dirlink` answers
adds the name's pair. -/
theorem Represents.link {data : List UInt8} {M : DirMap}
    (hM : Represents (records data) M) (hwhole : data.length % direntSize = 0)
    {name : List UInt8} (hk : M (dirKey name) = none) {inum : Nat} (hinum : 0 < inum ∧ inum < 2 ^ 16) :
    Represents (records (overwrite data (freeRecs (records data) 0) (dirent inum name)))
      (Function.update M (dirKey name) (some inum)) := by
  obtain ⟨j, hj, hoff, -, hfree⟩ := freeRecs_spec (records data) 0
  have hde : Hits (dirKey name) (dirent inum name) :=
    ⟨by rw [direntInum_dirent]; omega, dirKey_direntName inum name⟩
  have hval : direntInum (dirent inum name) = inum := by
    rw [direntInum_dirent]
    omega
  rw [hoff, Nat.zero_add]
  rcases Nat.lt_or_ge j (records data).length with hlt | hge
  · -- the first free record is reused
    rw [records_overwrite hwhole hlt (length_dirent inum name)]
    have hrep := hM.set_free hlt
      (by rwa [List.getD_eq_getElem?_getD, List.getElem?_eq_getElem hlt, Option.getD_some] at hfree)
      hk hde
    rwa [hval] at hrep
  · -- no record is free: the entry is appended
    have hjn : j * direntSize = data.length := by
      have := length_records data
      have hj' : j = (records data).length := by omega
      rw [hj', this]
      exact Nat.div_mul_cancel (Nat.dvd_of_mod_eq_zero hwhole)
    have happ : overwrite data (j * direntSize) (dirent inum name) = data ++ dirent inum name := by
      rw [overwrite, hjn, List.take_of_length_le le_rfl,
        List.drop_eq_nil_of_le (Nat.le_add_right _ _), List.append_nil]
    rw [happ, records_append hwhole (length_dirent inum name)]
    have hrep := hM.append hk hde
    rwa [hval] at hrep

/-- `dirlink` on a directory: for a name the map has, `-1` and the directory
as it was; otherwise the entry written at the first free record or at the
end, or `-1` and the content as it was when `writei` stored nothing.  The
directory stays `DirOK` and no reference count changes. -/
theorem dirlink_spec {s : Fs} {dp : Fin NINODE} {M : DirMap} (hd : s.DirOK dp)
    (hM : Represents (records (s.inode dp).din.data) M) (hfree : ∃ ip, (s.inode ip).ref = 0)
    (name : List UInt8) (inum : Nat) :
    ∃ r s', (dirlink dp name inum).run s = .ok (r, s') ∧ s'.DirOK dp ∧
      (∀ ip, (s'.inode ip).ref = (s.inode ip).ref) ∧
      (M (dirKey name) ≠ none → r = -1 ∧ (s'.inode dp).din = (s.inode dp).din) ∧
      (M (dirKey name) = none →
        r = 0 ∧ (s'.inode dp).din.data = overwrite (s.inode dp).din.data
          (freeRecs (records (s.inode dp).din.data) 0) (dirent inum name) ∨
        r = -1 ∧ (s'.inode dp).din.data = (s.inode dp).din.data) := by
  cases hk : M (dirKey name) with
  | some n =>
    -- the name is there: `dirlookup` takes a reference, and `iput` drops it
    obtain ⟨i, hi, hscan, -, -⟩ := hM.lookupRecs_some hk 0
    obtain ⟨ip, slot, hget, -, hdin, href, hheld⟩ := iget_spec n hfree
    have hput := @iput_run_of_held ip (s.setInode ip slot) (by simpa using hheld)
    simp only [dirlink, StateT.run_bind, dirlookup_run hd, hscan, hget, ok_bind, pure_eq_ok,
      StateT.run_pure]
    simp only [hput]
    refine ⟨-1, _, rfl, hd.of_din ?_, fun j => ?_, fun _ => ⟨rfl, ?_⟩, fun h => absurd h (by simp)⟩
    · by_cases hj : dp = ip
      · subst hj
        simp [hdin]
      · simp [hj]
    · by_cases hj : j = ip
      · subst hj
        simp [href]
      · simp [hj]
    · by_cases hj : dp = ip
      · subst hj
        simp [hdin]
      · simp [hj]
  | none =>
    -- the name is new: the scan of `dirlink` and one `writei`
    obtain ⟨j, hj, hoff, -, -⟩ := freeRecs_spec (records (s.inode dp).din.data) 0
    obtain ⟨r, s', hw, hok, hother, href, -, -, hdata, -⟩ :=
      writei_record hd hj (length_dirent inum name)
    have hlink := dirlinkLoop_run hd ((s.inode dp).din.size + 1) 0
      (by
        have := Nat.div_le_self (s.inode dp).din.data.length direntSize
        rw [length_records]
        simp only [Dinode.size]
        omega)
    simp only [Nat.zero_mul, List.drop_zero] at hlink
    rw [Nat.zero_add] at hoff
    simp only [dirlink, StateT.run_bind, dirlookup_run hd, hM.lookupRecs_none hk, ok_bind,
      StateT.run_pure, pure_eq_ok, slot, StateT.run_get, hlink, hoff, hw]
    have hrefs : ∀ ip, (s'.inode ip).ref = (s.inode ip).ref := by
      intro ip
      by_cases hip : ip = dp
      · subst hip
        exact href
      · rw [hother ip hip]
    rcases hdata with ⟨hr, hnew⟩ | ⟨hr, hsame⟩
    · refine ⟨0, s', by rw [if_neg (fun h => h hr)]; rfl, hok, hrefs, fun h => absurd rfl h, fun _ => .inl ⟨rfl, hnew⟩⟩
    · refine ⟨-1, s', by rw [if_pos hr]; rfl, hok, hrefs, fun h => absurd rfl h, fun _ => .inr ⟨rfl, hsame⟩⟩

/-! ## Sequences of links and clearings -/

/-- The operations on one directory: `dirlink(dp, name, inum)`, and the
clearing of the entry of `name` that `sys_unlink` does. -/
inductive DirOp
  | link (name : List UInt8) (inum : Nat)
  | unlink (name : List UInt8)

/-- The steps of `sys_unlink` that change the directory `dp`: the entry that
`dirlookup` finds for `name` is overwritten with a zero record, and the
reference `dirlookup` took is dropped; `-1` when there is no entry. -/
def unlinkEntry (dp : Fin NINODE) (name : List UInt8) : FsM Int := do
  match ← dirlookup dp name with
  | none => return -1
  | some (ip, off) =>
    if (← writei dp (List.replicate direntSize 0) off direntSize) ≠ direntSize then
      throw "unlink: writei"
    iput ip
    return 0

/-- One operation on `dp`, with its result. -/
def DirOp.run (dp : Fin NINODE) : DirOp → FsM Int
  | .link name inum => dirlink dp name inum
  | .unlink name => unlinkEntry dp name

/-- A sequence of operations on `dp`, with their results in order. -/
def runDirOps (dp : Fin NINODE) : List DirOp → FsM (List Int)
  | [] => return []
  | op :: ops => do
    let r ← op.run dp
    let rs ← runDirOps dp ops
    return r :: rs

/-- The inode numbers a link is given are those of inodes, which are not 0
and which a `ushort` holds. -/
def DirOp.Valid : DirOp → Prop
  | .link _ inum => 0 < inum ∧ inum < 2 ^ 16
  | .unlink _ => True

instance : DecidablePred DirOp.Valid
  | .link _ inum => inferInstanceAs (Decidable (0 < inum ∧ inum < 2 ^ 16))
  | .unlink _ => inferInstanceAs (Decidable True)

/-- What an operation that answered `r` does to the map: a link that answered
0 adds its pair, a clearing removes its key, and a refused link changes
nothing. -/
def DirMap.step (M : DirMap) : DirOp → Int → DirMap
  | .link name inum, r => if r = 0 then Function.update M (dirKey name) (some inum) else M
  | .unlink name, _ => Function.update M (dirKey name) none

/-- The map after a sequence of operations that answered `rs`. -/
def DirMap.replay (M : DirMap) : List DirOp → List Int → DirMap
  | op :: ops, r :: rs => (M.step op r).replay ops rs
  | _, _ => M

/-- What a run of operations on `dp` keeps: the directory is `DirOK`, its
records represent `M`, and some slot of the inode table is free. -/
structure DirRun (s : Fs) (dp : Fin NINODE) (M : DirMap) : Prop where
  ok : s.DirOK dp
  rep : Represents (records (s.inode dp).din.data) M
  free : ∃ ip, (s.inode ip).ref = 0

/-- A free slot stays free while no reference count changes. -/
theorem free_of_refs {s s' : Fs} (h : ∀ ip, (s'.inode ip).ref = (s.inode ip).ref)
    (hfree : ∃ ip, (s.inode ip).ref = 0) : ∃ ip, (s'.inode ip).ref = 0 := by
  obtain ⟨ip, hip⟩ := hfree
  exact ⟨ip, by rw [h ip, hip]⟩

/-- The clearing of `sys_unlink` removes the key of `name`, answers 0 exactly
when it was there, and changes no reference count. -/
theorem unlinkEntry_spec {s : Fs} {dp : Fin NINODE} {M : DirMap} (h : DirRun s dp M)
    (name : List UInt8) :
    ∃ r s', (unlinkEntry dp name).run s = .ok (r, s') ∧
      DirRun s' dp (Function.update M (dirKey name) none) ∧
      (∀ ip, (s'.inode ip).ref = (s.inode ip).ref) ∧ (r = 0 ↔ M (dirKey name) ≠ none) := by
  cases hk : M (dirKey name) with
  | none =>
    -- nothing to clear
    have hsame : Function.update M (dirKey name) none = M := Function.update_eq_self_iff.mpr hk.symm
    refine ⟨-1, s, ?_, by rw [hsame]; exact h, fun _ => rfl, by simp⟩
    simp only [unlinkEntry, StateT.run_bind, dirlookup_run h.ok, h.rep.lookupRecs_none hk,
      StateT.run_pure, pure_eq_ok, ok_bind]
  | some n =>
    -- `dirlookup` takes a reference to the entry's inode, the record is zeroed,
    -- and `iput` drops the reference
    obtain ⟨i, hi, hscan, hhit, -⟩ := h.rep.lookupRecs_some hk 0
    obtain ⟨ip, slot, hget, -, hdin, href, hheld⟩ := iget_spec n h.free
    set s₁ := s.setInode ip slot with hs₁
    have hdin₁ : (s₁.inode dp).din = (s.inode dp).din := by
      by_cases hip : dp = ip
      · subst hip
        simp [hs₁, hdin]
      · simp [hs₁, hip]
    have hok₁ : s₁.DirOK dp := h.ok.of_din hdin₁
    have hi₁ : i < (records (s₁.inode dp).din.data).length := by rwa [hdin₁]
    obtain ⟨r, s₂, hw, hok₂, hother, href₂, -, hvalid₂, hdata, hstored⟩ :=
      writei_record hok₁ (le_of_lt hi₁) (List.length_replicate (n := direntSize) (a := (0 : UInt8)))
    have hr : r = direntSize := hstored hi₁
    have hdata₂ : (s₂.inode dp).din.data =
        overwrite (s.inode dp).din.data (i * direntSize) (List.replicate direntSize 0) := by
      rcases hdata with ⟨-, hnew⟩ | ⟨hne, -⟩
      · rw [hnew, hdin₁]
      · exact absurd hr hne
    have hrefs₂ : ∀ j, (s₂.inode j).ref = (s₁.inode j).ref := by
      intro j
      by_cases hj : j = dp
      · subst hj
        exact href₂
      · rw [hother j hj]
    -- the slot `iput` drops is as `iget` left it, so `iput` does not free it
    have hslot₂ : (s₂.inode ip).ref = slot.ref ∧ (s₂.inode ip).valid = slot.valid := by
      by_cases hip : ip = dp
      · subst hip
        rw [href₂, hvalid₂]
        simp [hs₁]
      · rw [hother ip hip]
        simp [hs₁]
    have hput := @iput_run_of_held ip s₂ (by rw [hslot₂.1, hslot₂.2]; exact hheld)
    have hrefs₃ : ∀ j, ((s₂.setInode ip { s₂.inode ip with ref := (s₂.inode ip).ref - 1 }).inode j).ref =
        (s.inode j).ref := by
      intro j
      by_cases hj : j = ip
      · subst hj
        simp only [Fs.setInode_inode_self]
        rw [hslot₂.1, href]
        omega
      · rw [Fs.setInode_inode_of_ne _ _ hj, hrefs₂, hs₁, Fs.setInode_inode_of_ne _ _ hj]
    have hdin₃ : ((s₂.setInode ip { s₂.inode ip with ref := (s₂.inode ip).ref - 1 }).inode dp).din =
        (s₂.inode dp).din := by
      by_cases hip : dp = ip
      · subst hip
        simp
      · simp [hip]
    refine ⟨0, _, ?_, ⟨hok₂.of_din hdin₃, ?_, free_of_refs hrefs₃ h.free⟩, hrefs₃, by simp⟩
    · rw [Nat.zero_add] at hscan
      simp only [unlinkEntry, StateT.run_bind, dirlookup_run h.ok, hscan, hget, ok_bind,
        StateT.run_pure, pure_eq_ok, hw]
      rw [if_neg (fun h => h hr)]
      simp only [StateT.run_bind, StateT.run_pure, pure_eq_ok, ok_bind, hput]
    · rw [hdin₃, hdata₂, records_overwrite h.ok.whole hi (List.length_replicate)]
      exact h.rep.clear hi hhit direntInum_zeros

/-- One operation keeps what a run keeps, and changes the map as
`DirMap.step` says. -/
theorem DirOp.run_spec {s : Fs} {dp : Fin NINODE} {M : DirMap} (h : DirRun s dp M) (op : DirOp)
    (hop : op.Valid) :
    ∃ r s', (op.run dp).run s = .ok (r, s') ∧ DirRun s' dp (M.step op r) ∧
      ∀ ip, (s'.inode ip).ref = (s.inode ip).ref := by
  cases op with
  | link name inum =>
    obtain ⟨r, s', hrun, hok, hrefs, hhas, hnew⟩ := dirlink_spec h.ok h.rep h.free name inum
    refine ⟨r, s', hrun, ⟨hok, ?_, free_of_refs hrefs h.free⟩, hrefs⟩
    by_cases hk : M (dirKey name) = none
    · rcases hnew hk with ⟨rfl, hdata⟩ | ⟨rfl, hdata⟩
      · -- the link was stored
        rw [DirMap.step, if_pos rfl, hdata]
        exact h.rep.link h.ok.whole hk hop
      · -- `writei` stored nothing
        rw [DirMap.step, if_neg (by decide), hdata]
        exact h.rep
    · -- the name was there
      obtain ⟨rfl, hdin⟩ := hhas hk
      rw [DirMap.step, if_neg (by decide), hdin]
      exact h.rep
  | unlink name =>
    obtain ⟨r, s', hrun, hrun', hrefs, -⟩ := unlinkEntry_spec h name
    exact ⟨r, s', hrun, hrun', hrefs⟩

/-- **Run lemma.**  Along any sequence of valid operations, the directory
stays `DirOK`, its records represent the map replayed from the results, and
no reference count changes. -/
theorem runDirOps_spec {dp : Fin NINODE} (ops : List DirOp) (hops : ∀ op ∈ ops, op.Valid) :
    ∀ (s : Fs) (M : DirMap), DirRun s dp M →
      ∃ rs s', (runDirOps dp ops).run s = .ok (rs, s') ∧ rs.length = ops.length ∧
        DirRun s' dp (M.replay ops rs) ∧ ∀ ip, (s'.inode ip).ref = (s.inode ip).ref := by
  induction ops with
  | nil => exact fun s M h => ⟨[], s, rfl, rfl, h, fun _ => rfl⟩
  | cons op ops ih =>
    intro s M h
    obtain ⟨r, s₁, hrun, h₁, hrefs₁⟩ := op.run_spec h (hops op List.mem_cons_self)
    obtain ⟨rs, s', hrest, hlen, h', hrefs'⟩ :=
      ih (fun o ho => hops o (List.mem_cons_of_mem _ ho)) s₁ (M.step op r) h₁
    refine ⟨r :: rs, s', ?_, by simp [hlen], h', fun ip => (hrefs' ip).trans (hrefs₁ ip)⟩
    simp only [runDirOps, StateT.run_bind, hrun, ok_bind, hrest, StateT.run_pure, pure_eq_ok]

/-! ## The directory as a map -/

/-- `dirlookup` follows the map: nothing for a key it lacks, and for a key it
has, the inode it names (in a slot `iget` fills) and the offset of a record
that holds the key with that inode. -/
theorem dirlookup_spec {s : Fs} {dp : Fin NINODE} {M : DirMap} (h : DirRun s dp M)
    (name : List UInt8) :
    (M (dirKey name) = none → (dirlookup dp name).run s = .ok (none, s)) ∧
    ∀ n, M (dirKey name) = some n →
      ∃ ip i s', (dirlookup dp name).run s = .ok (some (ip, i * direntSize), s') ∧
        (s'.inode ip).inum = n ∧ ∃ hi : i < (records (s.inode dp).din.data).length,
          Hits (dirKey name) (records (s.inode dp).din.data)[i] ∧
          direntInum (records (s.inode dp).din.data)[i] = n := by
  refine ⟨fun hk => ?_, fun n hk => ?_⟩
  · simp only [dirlookup_run h.ok, h.rep.lookupRecs_none hk, StateT.run_pure, pure_eq_ok]
  · obtain ⟨i, hi, hscan, hhit, hn⟩ := h.rep.lookupRecs_some hk 0
    obtain ⟨ip, slot, hget, hinum, -⟩ := iget_spec n h.free
    refine ⟨ip, i, s.setInode ip slot, ?_, by simp [hinum], hi, hhit, hn⟩
    rw [Nat.zero_add] at hscan
    simp only [dirlookup_run h.ok, hscan, StateT.run_bind, hget, ok_bind, StateT.run_pure,
      pure_eq_ok]

/-- A directory as `mkdir` leaves it in the first slot of the table: inode 2,
with `.` and `..`. -/
def mkdirFs : Fs :=
  (mkfsImage 200 1953).setInode rootSlot
    { inum := 2, ref := 1, valid := true,
      din :=
        { type := T_DIR, major := 0, minor := 0, nlink := 1,
          data := dirent 2 [46] ++ dirent ROOTINO [46, 46], mapped := [0], indirect := false } }

/-- Link `a`, clear `..`, link `b`. -/
def mkdirOps : List DirOp := [.link [97] 3, .unlink [46, 46], .link [98] 4]

theorem mkdirFs_dirOK : mkdirFs.DirOK rootSlot := by
  refine ⟨rfl, by decide, by decide, fun bn hbn => ?_⟩
  have hbn' : bn * BSIZE < 32 := hbn
  have : bn = 0 := by simp only [BSIZE] at hbn'; omega
  subst this
  decide

theorem mkdirFs_distinct (i j : Nat) (hi : i < (records (mkdirFs.inode rootSlot).din.data).length)
    (hj : j < (records (mkdirFs.inode rootSlot).din.data).length)
    (hui : direntInum (records (mkdirFs.inode rootSlot).din.data)[i] ≠ 0)
    (huj : direntInum (records (mkdirFs.inode rootSlot).din.data)[j] ≠ 0)
    (hkey : dirKey (direntName (records (mkdirFs.inode rootSlot).din.data)[i]) =
      dirKey (direntName (records (mkdirFs.inode rootSlot).din.data)[j])) : i = j := by
  have hlen : (records (mkdirFs.inode rootSlot).din.data).length = 2 := by decide
  have hi2 : i < 2 := hlen ▸ hi
  have hj2 : j < 2 := hlen ▸ hj
  -- two records, `.` and `..`, with different keys
  rcases i with _ | _ | i <;> rcases j with _ | _ | j <;>
    first | rfl | omega | exact absurd hkey (by decide +revert)

/-- A directory holding two used entries named `a`, for inodes 5 and 7. -/
def twoNamesFs : Fs :=
  (mkfsImage 200 1953).setInode rootSlot
    { inum := 2, ref := 1, valid := true,
      din :=
        { type := T_DIR, major := 0, minor := 0, nlink := 1,
          data := dirent 5 [97] ++ dirent 7 [97], mapped := [0], indirect := false } }

end Xv6
