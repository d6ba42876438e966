/-
# The block cache of `mkfs.gas`: `bc_find`, `bc_read`, `bc_write`, `bc_sync`

`mkfs.gas` reaches the device by whole blocks, either directly (`read_block`, `write_block`) or
through a list of cached blocks.  `bc_read` hands out a pointer into the list, so a caller edits a
cached block in place (`bc_edit`); `bc_write` marks it, and `bc_sync` writes the marked ones back.

`read_block` and `write_block` compute the byte offset of a block as a product of two `int`s, and do
not look at what `lseek` returns.  From block 524288 on the product overflows, and they have no
result here.  So a result with `mkfs_main who size dev = some img` is one about devices of at most
132919295 blocks, a little over 507 GiB: a larger one has a block 524288 in its inode list
(`exists_overflow_of_large`).  What becomes of a larger one is no part of this model: with a product
that wraps, the blocks up to 1048575 are accessed at the file position that the last access left.

The list is a map from block numbers to entries as long as no number occurs twice (`NoDup`), and
two views of it are enough for its users: `get`, what a caller reads in a block, and `out`, what
`bc_sync` leaves on the device there (`bc_sync_dev`).  Each operation has one lemma about the two.

`NoDup` is kept by every operation and never checked by one.  It is what makes `bc_sync` well
defined: with a number twice in the list the block written last would win.
-/
import Mathlib.Data.Set.Insert
import GasFs.Layout

namespace GasFs

open Bytes

/-! ## 1. Blocks of the device

`lseek(fd, blk_id * GAS_BLOCK_SIZE, SEEK_SET)` stands in front of each `read` and `write`.  Both
functions here have no result where the product leaves `int`. -/

/-- The device, by block number.  What a block holds is the bytes of a page. -/
abbrev Dev : Type := Nat → Mem

/-- The byte offset `blk_id * GAS_BLOCK_SIZE` is a product of two `int`s: from `2 ^ 19` blocks on it
overflows, which C leaves undefined. -/
def offset_ok (blk_id : Nat) : Prop := blk_id * GAS_BLOCK_SIZE < 2147483648

instance (blk_id : Nat) : Decidable (offset_ok blk_id) := inferInstanceAs (Decidable (_ < _))

theorem offset_ok_iff {blk_id : Nat} : offset_ok blk_id ↔ blk_id < 524288 := by
  simp only [offset_ok, GAS_BLOCK_SIZE]
  omega

/-- `read_block`.  It ignores a failed `lseek`, so where the offset is not exact it reads the block at
the file position; that has no result here. -/
def read_block (dev : Dev) (blk_id : Nat) : Option Mem :=
  if offset_ok blk_id then some (dev blk_id) else none

/-- `write_block`, with the same limit: what it would write at the file position has no result. -/
def write_block (dev : Dev) (blk_id : Nat) (block : Mem) : Option Dev :=
  if offset_ok blk_id then some (Function.update dev blk_id block) else none

theorem write_block_eq_some {dev dev' : Dev} {blk_id : Nat} {block : Mem} :
    write_block dev blk_id block = some dev' ↔
      offset_ok blk_id ∧ dev' = Function.update dev blk_id block := by
  rw [write_block]
  split
  · next h => rw [Option.some.injEq, eq_comm, and_iff_right h]
  · next h => exact iff_of_false (by simp) fun h' => h h'.1

/-! ## 2. The cache

The list is never shortened: `bc_read` puts a new entry in front, and `bc_sync` gives the whole list
up at the end of the program.  An entry is found by the first one with its number. -/

/-- `struct blk_cache`, less the link.  An entry is found by its number, and its place in the list
has no meaning. -/
structure BlkCache where
  dirty : Bool
  blk_id : Nat
  block : Mem

/-- A running `mkfs.gas`: the device and the list at `bc_head`. -/
structure Mkfs where
  dev : Dev
  bc_head : List BlkCache

/-- `bc_find`: the entry of a block, when it is cached. -/
def bc_find (l : List BlkCache) (blk_id : Nat) : Option BlkCache :=
  match l with
  | [] => none
  | it :: next => if it.blk_id = blk_id then some it else bc_find next blk_id

/-- Change the entry `bc_find` returns.  It stops at the first entry with the number, as the pointer
of the source would point to that one. -/
def bc_change (l : List BlkCache) (blk_id : Nat) (g : BlkCache → BlkCache) : List BlkCache :=
  match l with
  | [] => []
  | it :: next => if it.blk_id = blk_id then g it :: next else it :: bc_change next blk_id g

/-- `bc_read`: afterwards the block is in the list. -/
def bc_read (st : Mkfs) (blk_id : Nat) : Option Mkfs :=
  match bc_find st.bc_head blk_id with
  | some _ => some st
  | none =>
    match read_block st.dev blk_id with
    | none => none
    | some block => some { st with bc_head := ⟨false, blk_id, block⟩ :: st.bc_head }

/-- Store through the pointer `bc_read` returned.  The source has no function for it: it is what a
caller does between `bc_read` and `bc_write`. -/
def bc_edit (st : Mkfs) (blk_id : Nat) (f : Mem → Mem) : Mkfs :=
  { st with bc_head := bc_change st.bc_head blk_id fun it => { it with block := f it.block } }

/-- `bc_write`: mark the entry, and with `sync` write it to the device now.  A block that is not
cached is left alone. -/
def bc_write (st : Mkfs) (blk_id : Nat) (sync : Bool) : Option Mkfs :=
  match bc_find st.bc_head blk_id with
  | none => some st
  | some p =>
    if sync then
      match write_block st.dev p.blk_id p.block with
      | none => none
      | some dev =>
        some ⟨dev, bc_change st.bc_head blk_id fun it => { it with dirty := false }⟩
    else
      some { st with bc_head := bc_change st.bc_head blk_id fun it => { it with dirty := true } }

/-- The loop of `bc_sync`. -/
def bc_sync_loop : List BlkCache → Dev → Option Dev
  | [], dev => some dev
  | it :: next, dev =>
    if it.dirty then
      match write_block dev it.blk_id it.block with
      | none => none
      | some dev => bc_sync_loop next dev
    else bc_sync_loop next dev

/-- `bc_sync`: write back all that is marked, and give up the list. -/
def bc_sync (st : Mkfs) : Option Mkfs :=
  match bc_sync_loop st.bc_head st.dev with
  | none => none
  | some dev => some ⟨dev, []⟩

/-! ## 3. What is cached

`get` and `out` are the two readings of a state that the rest of `mkfs.gas` is stated in.  They
differ for a block that was edited and not marked, and such an edit is lost. -/

/-- A block is not found exactly when its number is not in the list. -/
theorem bc_find_eq_none {l : List BlkCache} {blk_id : Nat} :
    bc_find l blk_id = none ↔ blk_id ∉ l.map BlkCache.blk_id := by
  induction l with
  | nil => simp [bc_find]
  | cons it next ih =>
    simp only [bc_find, List.map_cons, List.mem_cons, not_or]
    split
    · next he => simp [he]
    · next hne => rw [ih, and_iff_right (Ne.symm hne)]

/-- A change is seen under its own number. -/
theorem bc_find_change (l : List BlkCache) (blk_id : Nat) {g : BlkCache → BlkCache}
    (hg : ∀ it, (g it).blk_id = it.blk_id) (b : Nat) :
    bc_find (bc_change l blk_id g) b =
      if b = blk_id then (bc_find l blk_id).map g else bc_find l b := by
  induction l with
  | nil => simp [bc_change, bc_find]
  | cons it next ih =>
    simp only [bc_change]
    split
    · next he =>
      simp only [bc_find, hg, he, if_true, Option.map_some]
      rcases eq_or_ne blk_id b with rfl | hne
      · simp
      · rw [if_neg hne, if_neg hne.symm, if_neg hne]
    · next hne =>
      simp only [bc_find, ih, if_neg hne]
      split
      · next he =>
        rw [if_neg fun hb => hne (he.trans hb)]
      · rfl

/-- A change in place leaves the numbers in the list. -/
theorem bc_change_blk_id (l : List BlkCache) (blk_id : Nat) {g : BlkCache → BlkCache}
    (hg : ∀ it, (g it).blk_id = it.blk_id) :
    (bc_change l blk_id g).map BlkCache.blk_id = l.map BlkCache.blk_id := by
  induction l with
  | nil => rfl
  | cons it next ih =>
    simp only [bc_change]
    split
    · rw [List.map_cons, List.map_cons, hg]
    · rw [List.map_cons, List.map_cons, ih]

namespace Mkfs

/-- No block is cached twice.  `bc_read` asks `bc_find` first, so it never adds a number that is
there. -/
def NoDup (st : Mkfs) : Prop := (st.bc_head.map BlkCache.blk_id).Nodup

/-- The block is in the list.  The pointer of an earlier `bc_read` stays good as long as it is. -/
def Cached (st : Mkfs) (b : Nat) : Prop := ∃ it, bc_find st.bc_head b = some it

/-- The block is in the list and will be written back. -/
def Dirty (st : Mkfs) (b : Nat) : Prop := ∃ it, bc_find st.bc_head b = some it ∧ it.dirty = true

/-- What `bc_read` shows in a block.  A block that is not cached is shown as it is on the device. -/
def get (st : Mkfs) (b : Nat) : Mem :=
  match bc_find st.bc_head b with
  | some it => it.block
  | none => st.dev b

/-- What `bc_sync` leaves in a block of the device.  A block that was edited and not marked stays
what it was on the device. -/
def out (st : Mkfs) (b : Nat) : Mem :=
  match bc_find st.bc_head b with
  | some it => if it.dirty then it.block else st.dev b
  | none => st.dev b

theorem out_of_dirty {st : Mkfs} {b : Nat} (h : st.Dirty b) : st.out b = st.get b := by
  obtain ⟨it, hf, hd⟩ := h
  simp [out, get, hf, hd]

end Mkfs

/-! ## 4. The operations

One structure for each operation says what becomes of `NoDup`, of the blocks cached, of `get` and of
`out`.  None of them mentions the list, so that nothing behind this section walks it again. -/

variable {st st' : Mkfs} {blk_id : Nat}

/-- Reading changes nothing that can be seen, and caches the block.  Nothing else is cached by it,
so a later step may rely on a block not being there. -/
structure Reads (st st' : Mkfs) (blk_id : Nat) : Prop where
  noDup : st.NoDup → st'.NoDup
  cached : st'.Cached blk_id
  keeps : ∀ b, st.Cached b → st'.Cached b
  only : ∀ b, st'.Cached b → b = blk_id ∨ st.Cached b
  get : ∀ b, st'.get b = st.get b
  out : ∀ b, st'.out b = st.out b
  dirty : ∀ b, st'.Dirty b ↔ st.Dirty b

/-- `bc_read` keeps to `Reads`: a block found is left, a block not found is read from the device and
put in front, clean. -/
theorem bc_read_reads (h : bc_read st blk_id = some st') : Reads st st' blk_id := by
  simp only [bc_read] at h
  cases hf : bc_find st.bc_head blk_id with
  | some it =>
    rw [hf] at h
    obtain rfl := Option.some.inj h
    exact ⟨fun h => h, ⟨it, hf⟩, fun _ h => h, fun _ => Or.inr, fun _ => rfl, fun _ => rfl,
      fun _ => Iff.rfl⟩
  | none =>
    rw [hf] at h
    simp only [read_block] at h
    split at h
    · simp at h
    · next block he =>
      obtain rfl : st.dev blk_id = block := by
        split at he
        · exact Option.some.inj he
        · simp at he
      obtain rfl := Option.some.inj h
      have hfind : ∀ b, b ≠ blk_id →
          bc_find (⟨false, blk_id, st.dev blk_id⟩ :: st.bc_head) b = bc_find st.bc_head b :=
        fun b hne => if_neg (Ne.symm hne)
      refine ⟨fun hnd => List.nodup_cons.mpr ⟨bc_find_eq_none.mp hf, hnd⟩, ⟨_, if_pos rfl⟩,
        fun b hb => ?_, fun b hb => ?_, fun b => ?_, fun b => ?_, fun b => ?_⟩
      · rcases eq_or_ne b blk_id with rfl | hne
        · exact ⟨_, if_pos rfl⟩
        · simpa only [Mkfs.Cached, hfind b hne] using hb
      · rcases eq_or_ne b blk_id with rfl | hne
        · exact Or.inl rfl
        · exact Or.inr (by simpa only [Mkfs.Cached, hfind b hne] using hb)
      · rcases eq_or_ne b blk_id with rfl | hne
        · simp [Mkfs.get, bc_find, hf]
        · simp only [Mkfs.get, hfind b hne]
      · rcases eq_or_ne b blk_id with rfl | hne
        · simp [Mkfs.out, bc_find, hf]
        · simp only [Mkfs.out, hfind b hne]
      · rcases eq_or_ne b blk_id with rfl | hne
        · simp [Mkfs.Dirty, bc_find, hf]
        · simp only [Mkfs.Dirty, hfind b hne]

/-- With an exact offset `bc_read` succeeds. -/
theorem bc_read_isSome (st : Mkfs) (h : offset_ok blk_id) : ∃ st', bc_read st blk_id = some st' := by
  simp only [bc_read, read_block, if_pos h]
  split
  · exact ⟨_, rfl⟩
  · exact ⟨_, rfl⟩

/-- `bc_read` can show the block. -/
def Mkfs.Readable (st : Mkfs) (b : Nat) : Prop := st.Cached b ∨ offset_ok b

theorem bc_read_of_readable (h : st.Readable blk_id) : ∃ st', bc_read st blk_id = some st' := by
  rcases h with ⟨it, hit⟩ | hok
  · exact ⟨st, by rw [bc_read, hit]⟩
  · exact bc_read_isSome st hok

theorem bc_read_of_not_readable (h : ¬st.Readable blk_id) : bc_read st blk_id = none := by
  obtain ⟨hc, hok⟩ := not_or.mp h
  cases hf : bc_find st.bc_head blk_id with
  | some it => exact absurd ⟨it, hf⟩ hc
  | none => simp only [bc_read, hf, read_block, if_neg hok]

/-- An edit is seen at once, and reaches the device only if the block is marked.  An edit of a block
that is not cached would have no pointer to go through. -/
structure Edits (st st' : Mkfs) (blk_id : Nat) (f : Mem → Mem) : Prop where
  noDup : st.NoDup → st'.NoDup
  cached : ∀ b, st'.Cached b ↔ st.Cached b
  get : ∀ b, st'.get b = if b = blk_id then f (st.get b) else st.get b
  out : ∀ b, b ≠ blk_id ∨ ¬st.Dirty b → st'.out b = st.out b
  dirty : ∀ b, st'.Dirty b ↔ st.Dirty b

/-- A store through the pointer keeps to `Edits`. -/
theorem bc_edit_edits (f : Mem → Mem) (hc : st.Cached blk_id) :
    Edits st (bc_edit st blk_id f) blk_id f := by
  have hfind : ∀ b, bc_find (bc_edit st blk_id f).bc_head b =
      if b = blk_id then (bc_find st.bc_head blk_id).map fun it => { it with block := f it.block }
      else bc_find st.bc_head b := bc_find_change _ _ fun _ => rfl
  obtain ⟨it, hit⟩ := hc
  have hsame : bc_find (bc_edit st blk_id f).bc_head blk_id = some { it with block := f it.block } := by
    rw [hfind, if_pos rfl, hit]
    rfl
  have hother : ∀ b, b ≠ blk_id → bc_find (bc_edit st blk_id f).bc_head b = bc_find st.bc_head b :=
    fun b hne => (hfind b).trans (if_neg hne)
  have hdev : (bc_edit st blk_id f).dev = st.dev := rfl
  refine ⟨fun h => ?_, fun b => ?_, fun b => ?_, fun b hb => ?_, fun b => ?_⟩
  · have hids := bc_change_blk_id st.bc_head blk_id
      (g := fun it => { it with block := f it.block }) fun _ => rfl
    rw [Mkfs.NoDup, bc_edit, hids]
    exact h
  · rcases eq_or_ne b blk_id with rfl | hne
    · simp [Mkfs.Cached, hsame, hit]
    · simp only [Mkfs.Cached, hother b hne]
  · rcases eq_or_ne b blk_id with rfl | hne
    · simp [Mkfs.get, hsame, hit]
    · simp only [Mkfs.get, hother b hne, if_neg hne, hdev]
  · rcases eq_or_ne b blk_id with rfl | hne
    · have hd : it.dirty = false :=
        Bool.eq_false_iff.mpr fun hd => hb.elim (fun h => h rfl) fun h => h ⟨it, hit, hd⟩
      simp [Mkfs.out, hsame, hit, hd, hdev]
    · simp only [Mkfs.out, hother b hne, hdev]
  · rcases eq_or_ne b blk_id with rfl | hne
    · simp [Mkfs.Dirty, hsame, hit]
    · simp only [Mkfs.Dirty, hother b hne]

/-- Marking a block commits what is in it. -/
structure Marks (st st' : Mkfs) (blk_id : Nat) : Prop where
  noDup : st.NoDup → st'.NoDup
  cached : ∀ b, st'.Cached b ↔ st.Cached b
  get : ∀ b, st'.get b = st.get b
  out : ∀ b, b ≠ blk_id → st'.out b = st.out b
  dirty : ∀ b, st'.Dirty b ↔ b = blk_id ∨ st.Dirty b

/-- `bc_write` without `sync` keeps to `Marks`. -/
theorem bc_write_marks (h : bc_write st blk_id false = some st') (hc : st.Cached blk_id) :
    Marks st st' blk_id := by
  obtain ⟨it, hit⟩ := hc
  simp only [bc_write, hit, Bool.false_eq_true, if_false, Option.some.injEq] at h
  subst h
  have hfind := bc_find_change st.bc_head blk_id
    (g := fun it => { it with dirty := true }) fun _ => rfl
  have hids := bc_change_blk_id st.bc_head blk_id
    (g := fun it => { it with dirty := true }) fun _ => rfl
  generalize hl : bc_change st.bc_head blk_id (fun it => { it with dirty := true }) = l at hfind hids
  have hsame : bc_find l blk_id = some { it with dirty := true } := by
    rw [hfind, if_pos rfl, hit]
    rfl
  have hother : ∀ b, b ≠ blk_id → bc_find l b = bc_find st.bc_head b :=
    fun b hne => (hfind b).trans (if_neg hne)
  refine ⟨fun h => ?_, fun b => ?_, fun b => ?_, fun b hb => ?_, fun b => ?_⟩
  · rw [Mkfs.NoDup, hids]
    exact h
  · rcases eq_or_ne b blk_id with rfl | hne
    · simp [Mkfs.Cached, hsame, hit]
    · simp only [Mkfs.Cached, hother b hne]
  · rcases eq_or_ne b blk_id with rfl | hne
    · simp [Mkfs.get, hsame, hit]
    · simp only [Mkfs.get, hother b hne]
  · simp only [Mkfs.out, hother b hb]
  · rcases eq_or_ne b blk_id with rfl | hne
    · simp [Mkfs.Dirty, hsame]
    · simp only [Mkfs.Dirty, hother b hne, hne, false_or]

/-- Without `sync` nothing is written, so nothing can fail. -/
theorem bc_write_isSome (st : Mkfs) (blk_id : Nat) : ∃ st', bc_write st blk_id false = some st' := by
  simp only [bc_write]
  split
  · exact ⟨_, rfl⟩
  · exact ⟨_, rfl⟩

/-! ## 5. Writing back

`bc_sync` writes the blocks marked and no other.  The induction is on the list; with no number twice
a block written early is not written over by a later entry. -/

/-- The loop writes each marked block once. -/
theorem bc_sync_loop_dev : ∀ {l : List BlkCache} {dev dev' : Dev},
    bc_sync_loop l dev = some dev' → (l.map BlkCache.blk_id).Nodup → ∀ b, dev' b = Mkfs.out ⟨dev, l⟩ b := by
  intro l
  induction l with
  | nil =>
    intro dev dev' h _ b
    obtain rfl := Option.some.inj h
    rfl
  | cons it next ih =>
    intro dev dev' h hnd b
    obtain ⟨hnot, hnd'⟩ := List.nodup_cons.mp hnd
    have hnone : bc_find next it.blk_id = none := bc_find_eq_none.mpr hnot
    simp only [bc_sync_loop] at h
    split at h
    · next hd =>
      split at h
      · simp at h
      · next dev1 hw =>
        obtain ⟨-, rfl⟩ := write_block_eq_some.mp hw
        rw [ih h hnd']
        rcases eq_or_ne b it.blk_id with rfl | hne
        · simp [Mkfs.out, bc_find, hnone, hd]
        · simp only [Mkfs.out, bc_find, if_neg hne.symm, Function.update_of_ne hne]
    · next hd =>
      rw [ih h hnd']
      rcases eq_or_ne b it.blk_id with rfl | hne
      · simp [Mkfs.out, bc_find, hnone, hd]
      · simp only [Mkfs.out, bc_find, if_neg hne.symm]

/-- **`bc_sync` leaves in every block what is due there.** So `out` may be computed before the
write-back, in any order of the list. -/
theorem bc_sync_dev (h : bc_sync st = some st') (hnd : st.NoDup) : ∀ b, st'.dev b = st.out b := by
  simp only [bc_sync] at h
  split at h
  · simp at h
  · next dev he =>
    obtain rfl := Option.some.inj h
    exact bc_sync_loop_dev he hnd

/-- It cannot fail when the cached blocks have an offset. -/
theorem bc_sync_isSome (h : ∀ b, st.Cached b → offset_ok b) : ∃ st', bc_sync st = some st' := by
  have hloop : ∀ (l : List BlkCache) (dev : Dev), (∀ it ∈ l, offset_ok it.blk_id) →
      ∃ dev', bc_sync_loop l dev = some dev' := by
    intro l
    induction l with
    | nil => exact fun dev _ => ⟨dev, rfl⟩
    | cons it next ih =>
      intro dev hl
      have hnext := fun dev => ih dev fun it' h' => hl it' (List.mem_cons_of_mem _ h')
      simp only [bc_sync_loop, write_block, if_pos (hl it List.mem_cons_self)]
      split
      · exact hnext _
      · exact hnext _
  have hall : ∀ it ∈ st.bc_head, offset_ok it.blk_id := by
    intro it hit
    refine h it.blk_id ?_
    cases hf : bc_find st.bc_head it.blk_id with
    | none => exact absurd (List.mem_map_of_mem hit) (bc_find_eq_none.mp hf)
    | some it' => exact ⟨it', hf⟩
  obtain ⟨dev, hd⟩ := hloop st.bc_head st.dev hall
  exact ⟨⟨dev, []⟩, by rw [bc_sync, hd]⟩

/-! ## 6. A view of the whole state

A run of `mkfs.gas` reads, edits and marks a dozen blocks.  A `View` carries what is known of the
state from one call to the next: two functions from block numbers to contents and two sets.  Each
operation changes them by `Function.update` and `insert`, and the proofs about the run are rewrites
of these. -/

/-- The state shows the blocks `cur`, would leave `fin` on the device, will write back the blocks
`dirty`, and has at least the blocks `cached` in its list, all of them blocks with an offset.  Every
block in the list must have an offset, or `bc_sync` could not write it. -/
structure View (st : Mkfs) (cur fin : Nat → Mem) (dirty cached : Set Nat) : Prop where
  noDup : st.NoDup
  get : ∀ b, st.get b = cur b
  out : ∀ b, st.out b = fin b
  dirty : ∀ b, st.Dirty b ↔ b ∈ dirty
  cached : ∀ b ∈ cached, st.Cached b
  offset : ∀ b, st.Cached b → offset_ok b

section View

variable {cur fin : Nat → Mem} {dirty cached : Set Nat}

/-- With an empty list the device is all there is. -/
theorem View.empty (dev : Dev) : View ⟨dev, []⟩ dev dev ∅ ∅ where
  noDup := List.nodup_nil
  get _ := rfl
  out _ := rfl
  dirty _ := iff_of_false (by simp [Mkfs.Dirty, bc_find]) (Set.notMem_empty _)
  cached _ h := absurd h (Set.notMem_empty _)
  offset _ h := absurd h (by simp [Mkfs.Cached, bc_find])

/-- `bc_read` in a view. -/
theorem View.read (hv : View st cur fin dirty cached) {b : Nat} (hb : offset_ok b) :
    ∃ st', bc_read st b = some st' ∧ View st' cur fin dirty (insert b cached) := by
  obtain ⟨st', h⟩ := bc_read_isSome st hb
  have hr := bc_read_reads h
  refine ⟨st', h, hr.noDup hv.noDup, fun b => (hr.get b).trans (hv.get b),
    fun b => (hr.out b).trans (hv.out b), fun b => (hr.dirty b).trans (hv.dirty b),
    fun b' hb' => ?_, fun b' hb' => ?_⟩
  · rcases Set.mem_insert_iff.mp hb' with rfl | hb'
    · exact hr.cached
    · exact hr.keeps b' (hv.cached b' hb')
  · rcases hr.only b' hb' with rfl | hb'
    · exact hb
    · exact hv.offset b' hb'

/-- A block without an offset cannot be read. -/
theorem View.read_none (hv : View st cur fin dirty cached) {b : Nat} (hb : ¬offset_ok b) :
    bc_read st b = none :=
  bc_read_of_not_readable fun h => hb (h.elim (hv.offset b) id)

/-- An edit of a block that is not marked. -/
theorem View.edit_clean (hv : View st cur fin dirty cached) {b : Nat} (hc : b ∈ cached)
    (hd : b ∉ dirty) (f : Mem → Mem) :
    View (bc_edit st b f) (Function.update cur b (f (cur b))) fin dirty cached := by
  have he := bc_edit_edits f (hv.cached b hc)
  refine ⟨he.noDup hv.noDup, fun b' => ?_, fun b' => ?_, fun b' => (he.dirty b').trans (hv.dirty b'),
    fun b' hb' => (he.cached b').mpr (hv.cached b' hb'),
    fun b' hb' => hv.offset b' ((he.cached b').mp hb')⟩
  · rw [he.get, Function.update_apply, hv.get]
    split
    · next h => rw [h]
    · rfl
  · rw [he.out b' ?_, hv.out]
    rcases eq_or_ne b' b with rfl | hne
    · exact Or.inr fun h => hd ((hv.dirty b').mp h)
    · exact Or.inl hne

/-- An edit of a marked block. -/
theorem View.edit_dirty (hv : View st cur fin dirty cached) {b : Nat} (hd : b ∈ dirty)
    (f : Mem → Mem) :
    View (bc_edit st b f) (Function.update cur b (f (cur b))) (Function.update fin b (f (cur b)))
      dirty cached := by
  obtain ⟨it, hit, hdirty⟩ := (hv.dirty b).mpr hd
  have he := bc_edit_edits f ⟨it, hit⟩
  have hget : ∀ b', (bc_edit st b f).get b' = Function.update cur b (f (cur b)) b' := by
    intro b'
    rw [he.get, Function.update_apply, hv.get]
    split
    · next h => rw [h]
    · rfl
  refine ⟨he.noDup hv.noDup, hget, fun b' => ?_, fun b' => (he.dirty b').trans (hv.dirty b'),
    fun b' hb' => (he.cached b').mpr (hv.cached b' hb'),
    fun b' hb' => hv.offset b' ((he.cached b').mp hb')⟩
  rcases eq_or_ne b' b with rfl | hne
  · rw [Mkfs.out_of_dirty ((he.dirty b').mpr ⟨it, hit, hdirty⟩), hget, Function.update_self,
      Function.update_self]
  · rw [he.out b' (Or.inl hne), hv.out, Function.update_of_ne hne]

/-- `bc_write` in a view. -/
theorem View.write (hv : View st cur fin dirty cached) {b : Nat} (hc : b ∈ cached) :
    ∃ st', bc_write st b false = some st' ∧
      View st' cur (Function.update fin b (cur b)) (insert b dirty) cached := by
  obtain ⟨st', h⟩ := bc_write_isSome st b
  have hm := bc_write_marks h (hv.cached b hc)
  refine ⟨st', h, hm.noDup hv.noDup, fun b => (hm.get b).trans (hv.get b), fun b' => ?_,
    fun b' => ?_, fun b' hb' => (hm.cached b').mpr (hv.cached b' hb'),
    fun b' hb' => hv.offset b' ((hm.cached b').mp hb')⟩
  · rcases eq_or_ne b' b with rfl | hne
    · rw [Mkfs.out_of_dirty ((hm.dirty b').mpr (Or.inl rfl)), hm.get, hv.get, Function.update_self]
    · rw [hm.out b' hne, hv.out, Function.update_of_ne hne]
  · rw [hm.dirty, hv.dirty, Set.mem_insert_iff]

/-- Reading, editing and marking a block, in one go. -/
theorem View.edit_write (hv : View st cur fin dirty cached) {b : Nat} (hc : b ∈ cached)
    (hd : b ∉ dirty) (f : Mem → Mem) :
    ∃ st', bc_write (bc_edit st b f) b false = some st' ∧
      View st' (Function.update cur b (f (cur b))) (Function.update fin b (f (cur b)))
        (insert b dirty) cached := by
  obtain ⟨st', h, hv'⟩ := (hv.edit_clean hc hd f).write hc
  rw [Function.update_self] at hv'
  exact ⟨st', h, hv'⟩

/-- `bc_sync` in a view. -/
theorem View.sync (hv : View st cur fin dirty cached) :
    ∃ st', bc_sync st = some st' ∧ st'.dev = fin := by
  obtain ⟨st', h⟩ := bc_sync_isSome hv.offset
  exact ⟨st', h, funext fun b => (bc_sync_dev h hv.noDup b).trans (hv.out b)⟩

end View

end GasFs
