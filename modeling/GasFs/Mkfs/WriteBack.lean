/-
# The block cache of `mkfs.gas` is a write-back cache

`GasFs.Mkfs.Cache` says what each operation of the cache does.  Here they come in any order: a caller
reads blocks, edits the buffers it was given, writes blocks with `sync` set or not, and calls
`bc_sync`.  The list at `bc_head` with its dirty flags follows the abstract cache of
`WriteBack.Store` step by step (`Shows.step`), so a disciplined caller loses no edit.

What can go wrong is the device: a block number from `2 ^ 19` on has no offset an `int` can hold.
`write_back_correct_iff` says that nothing else can.

A caller is disciplined when it stores only through a pointer that `bc_read` gave it, and marks what
it stored before it asks for the block to be written back.  The discipline is that of
`WriteBack.Store`, where the result is proved once for a cache over any keys and values.  What is
left here is the refinement, one case for each of the four operations.
-/
import GasFs.Lib.WriteBack
import GasFs.Mkfs.Cache

namespace GasFs

open Bytes WriteBack

/-! ## 1. A synchronous write

No caller in `mkfs.gas` sets `sync`, but the cache has it: the block is written and its mark taken
away.  The lemma is the companion of `bc_write_marks`. -/

section Write

variable {st st' : Mkfs} {blk_id : Nat}

/-- The entry found under a number has that number. -/
theorem bc_find_blk_id {l : List BlkCache} {it : BlkCache} (h : bc_find l blk_id = some it) :
    it.blk_id = blk_id := by
  induction l with
  | nil => simp [bc_find] at h
  | cons hd next ih =>
    simp only [bc_find] at h
    split at h
    · next he =>
      obtain rfl := Option.some.inj h
      exact he
    · exact ih h

/-- A block written at once is on the device, and no longer marked. -/
structure WritesThrough (st st' : Mkfs) (blk_id : Nat) : Prop where
  noDup : st.NoDup → st'.NoDup
  cached : ∀ b, st'.Cached b ↔ st.Cached b
  get : ∀ b, st'.get b = st.get b
  out : ∀ b, st'.out b = if b = blk_id then st.get b else st.out b
  dirty : ∀ b, st'.Dirty b ↔ st.Dirty b ∧ b ≠ blk_id

/-- `bc_write` with `sync` keeps to `WritesThrough`. -/
theorem bc_write_through (h : bc_write st blk_id true = some st') (hc : st.Cached blk_id) :
    WritesThrough st st' blk_id := by
  obtain ⟨it, hit⟩ := hc
  have hid := bc_find_blk_id hit
  simp only [bc_write, hit, if_true] at h
  split at h
  · simp at h
  · next dev hw =>
    obtain ⟨-, rfl⟩ := write_block_eq_some.mp hw
    obtain rfl := Option.some.inj h
    have hfind := bc_find_change st.bc_head blk_id
      (g := fun it => { it with dirty := false }) fun _ => rfl
    have hids := bc_change_blk_id st.bc_head blk_id
      (g := fun it => { it with dirty := false }) fun _ => rfl
    generalize hl : bc_change st.bc_head blk_id (fun it => { it with dirty := false }) = l at hfind hids
    have hsame : bc_find l blk_id = some { it with dirty := false } := by
      rw [hfind, if_pos rfl, hit]
      rfl
    have hother : ∀ b, b ≠ blk_id → bc_find l b = bc_find st.bc_head b :=
      fun b hne => (hfind b).trans (if_neg hne)
    rw [hid]
    refine ⟨fun h => ?_, fun b => ?_, fun b => ?_, fun b => ?_, fun b => ?_⟩
    · rw [Mkfs.NoDup, hids]
      exact h
    · rcases eq_or_ne b blk_id with rfl | hne
      · simp [Mkfs.Cached, hsame, hit]
      · simp only [Mkfs.Cached, hother b hne]
    · rcases eq_or_ne b blk_id with rfl | hne
      · simp [Mkfs.get, hsame, hit]
      · simp only [Mkfs.get, hother b hne, Function.update_of_ne hne]
    · rcases eq_or_ne b blk_id with rfl | hne
      · simp [Mkfs.out, Mkfs.get, hsame, hit]
      · simp only [Mkfs.out, hother b hne, Function.update_of_ne hne, if_neg hne]
    · rcases eq_or_ne b blk_id with rfl | hne
      · simp [Mkfs.Dirty, hsame]
      · simp only [Mkfs.Dirty, hother b hne, ne_eq, hne, not_false_eq_true, and_true]

/-- A block that is not cached is not written. -/
theorem bc_write_of_not_cached (st : Mkfs) (hc : ¬st.Cached blk_id) (sync : Bool) :
    bc_write st blk_id sync = some st := by
  cases hf : bc_find st.bc_head blk_id with
  | some it => exact absurd ⟨it, hf⟩ hc
  | none => simp only [bc_write, hf]

/-- `bc_write` with `sync` set, in a view. -/
theorem View.write_sync {cur fin : Nat → Mem} {dirty cached : Set Nat}
    (hv : View st cur fin dirty cached) {b : Nat} (hc : b ∈ cached) :
    ∃ st', bc_write st b true = some st' ∧
      View st' cur (Function.update fin b (cur b)) (dirty \ {b}) cached := by
  obtain ⟨it, hit⟩ := hv.cached b hc
  have hok : offset_ok it.blk_id := by
    rw [bc_find_blk_id hit]
    exact hv.offset b ⟨it, hit⟩
  obtain ⟨st', h⟩ : ∃ st', bc_write st b true = some st' := by
    simp only [bc_write, hit, if_true, write_block, if_pos hok]
    exact ⟨_, rfl⟩
  have hw := bc_write_through h ⟨it, hit⟩
  refine ⟨st', h, hw.noDup hv.noDup, fun b => (hw.get b).trans (hv.get b), fun b' => ?_,
    fun b' => ?_, fun b' hb' => (hw.cached b').mpr (hv.cached b' hb'),
    fun b' hb' => hv.offset b' ((hw.cached b').mp hb')⟩
  · rw [hw.out, hv.get, hv.out, Function.update_apply]
    split
    · next he => rw [he]
    · rfl
  · rw [hw.dirty, hv.dirty, Set.mem_sdiff, Set.mem_singleton_iff]

end Write

/-! ## 2. Sequences of operations

An operation may fail, and a sequence then has no result.  `Mkfs.InReach` is an invariant of every
sequence, since a block gets into the list only by having been read. -/

/-- What a caller of the cache does.  Keys are block numbers and values are blocks; the operations
are those of the library. -/
abbrev BcOp : Type := Op Nat Mem

/-- One operation. -/
def bc_step (st : Mkfs) : BcOp → Option Mkfs
  | .read blk_id => bc_read st blk_id
  | .edit blk_id f => some (bc_edit st blk_id f)
  | .write blk_id sync => bc_write st blk_id sync
  | .sync => bc_sync st

/-- A sequence of operations. -/
def bc_run (st : Mkfs) : List BcOp → Option Mkfs
  | [] => some st
  | op :: ops => (bc_step st op).bind fun st => bc_run st ops

/-- A sequence in two parts. -/
theorem bc_run_append (ops ops' : List BcOp) (st : Mkfs) :
    bc_run st (ops ++ ops') = (bc_run st ops).bind fun st => bc_run st ops' := by
  induction ops generalizing st with
  | nil => rfl
  | cons op ops ih => simp only [List.cons_append, bc_run, ih, Option.bind_assoc]

/-- Every cached block has an offset.  It is what a later `bc_sync` needs. -/
def Mkfs.InReach (st : Mkfs) : Prop := ∀ b, st.Cached b → offset_ok b

/-- An edit caches nothing and drops nothing. -/
theorem cached_bc_edit (st : Mkfs) (blk_id : Nat) (f : Mem → Mem) (b : Nat) :
    (bc_edit st blk_id f).Cached b ↔ st.Cached b := by
  have hfind := bc_find_change st.bc_head blk_id
    (g := fun it => { it with block := f it.block }) (fun _ => rfl) b
  simp only [Mkfs.Cached, bc_edit, hfind, ← Option.isSome_iff_exists]
  split
  · next he => rw [he, Option.isSome_map]
  · rfl

/-- The cache holds what `bc_read` could read. -/
theorem bc_step_inReach {st st' : Mkfs} {op : BcOp} (hi : st.InReach)
    (h : bc_step st op = some st') : st'.InReach := by
  cases op with
  | read blk_id =>
    intro b hb
    rcases (bc_read_reads h).only b hb with rfl | hb
    · by_contra hok
      have hnone : bc_read st b = none :=
        bc_read_of_not_readable fun hr => hok (hr.elim (hi b) id)
      simp only [bc_step, hnone] at h
      simp at h
    · exact hi b hb
  | edit blk_id f =>
    obtain rfl := Option.some.inj h
    exact fun b hb => hi b ((cached_bc_edit st blk_id f b).mp hb)
  | write blk_id sync =>
    intro b hb
    by_cases hc : st.Cached blk_id
    · cases sync with
      | false => exact hi b (((bc_write_marks h hc).cached b).mp hb)
      | true => exact hi b (((bc_write_through h hc).cached b).mp hb)
    · obtain rfl := Option.some.inj ((bc_write_of_not_cached st hc sync).symm.trans h)
      exact hi b hb
  | sync =>
    simp only [bc_step, bc_sync] at h
    split at h
    · simp at h
    · obtain rfl := Option.some.inj h
      exact fun b hb => absurd hb (by simp [Mkfs.Cached, bc_find])

/-- Nor does a sequence of operations bring in a block without an offset. -/
theorem bc_run_inReach {st st' : Mkfs} {ops : List BcOp} (hi : st.InReach)
    (h : bc_run st ops = some st') : st'.InReach := by
  induction ops generalizing st with
  | nil =>
    obtain rfl := Option.some.inj h
    exact hi
  | cons op ops ih =>
    obtain ⟨st1, h1, h⟩ := Option.bind_eq_some_iff.mp h
    exact ih (bc_step_inReach hi h1) h

/-! ## 3. The list follows the abstract cache

`Shows` relates the list to the abstract cache: they show the same, would leave the same, mark the
same blocks and hold the same.  A step of one is a step of the other, and a run by induction. -/

/-- The state is one of the abstract cache.  The view is over functions and sets, so nothing of the
order of the list is left in it. -/
structure Shows (st : Mkfs) (s : Store Nat Mem) : Prop where
  view : View st s.cur s.fin s.dirty s.cached
  cached : ∀ b, st.Cached b → b ∈ s.cached

/-- With nothing read both caches are empty. -/
theorem Shows.start (dev : Dev) : Shows ⟨dev, []⟩ (Store.start dev) :=
  ⟨.empty dev, fun _ hb => absurd hb (by simp [Mkfs.Cached, bc_find])⟩

section Shows

variable {st st' : Mkfs} {s : Store Nat Mem} {op : BcOp} {rest : List BcOp}

/-- `bc_sync` leaves the list empty. -/
theorem bc_sync_head (h : bc_sync st = some st') : st'.bc_head = [] := by
  simp only [bc_sync] at h
  split at h
  · simp at h
  · obtain rfl := Option.some.inj h
    rfl

/-- **Each operation** is one of the abstract cache, if the block it reads has an offset. -/
theorem Shows.step (h : Shows st s) (hop : s.Allowed rest op)
    (hok : ∀ b, op = .read b → offset_ok b) :
    ∃ st', bc_step st op = some st' ∧ Shows st' (s.step op) := by
  obtain ⟨hv, hc⟩ := h
  cases op with
  | read b =>
    obtain ⟨st', hread, hv'⟩ := hv.read (hok b rfl)
    refine ⟨st', hread, hv', fun b' hb' => ?_⟩
    exact Set.mem_insert_iff.mpr (((bc_read_reads hread).only b' hb').imp_right (hc b'))
  | edit b f =>
    refine ⟨_, rfl, ?_, fun b' hb' => hc b' ((cached_bc_edit st b f b').mp hb')⟩
    by_cases hd : b ∈ s.dirty
    · have hv' := hv.edit_dirty hd f
      simp only [Store.step, if_pos hd]
      exact hv'
    · have hv' := hv.edit_clean hop.1 hd f
      simp only [Store.step, if_neg hd]
      exact hv'
  | write b sync =>
    by_cases hb : b ∈ s.cached
    · have hcb := hv.cached b hb
      simp only [Store.step, if_pos hb]
      cases sync with
      | false =>
        obtain ⟨st', hw, hv'⟩ := hv.write hb
        exact ⟨st', hw, hv', fun b' hb' => hc b' (((bc_write_marks hw hcb).cached b').mp hb')⟩
      | true =>
        obtain ⟨st', hw, hv'⟩ := hv.write_sync hb
        exact ⟨st', hw, hv', fun b' hb' => hc b' (((bc_write_through hw hcb).cached b').mp hb')⟩
    · simp only [Store.step, if_neg hb]
      exact ⟨st, bc_write_of_not_cached st (fun hcb => hb (hc b hcb)) sync, hv, hc⟩
  | sync =>
    obtain ⟨st', hsync, hdev⟩ := hv.sync
    obtain ⟨dev, l⟩ := st'
    obtain rfl : l = [] := bc_sync_head hsync
    obtain rfl : dev = s.fin := hdev
    exact ⟨_, hsync, .start s.fin⟩

/-- **A disciplined sequence** runs, and is at every point in the state the abstract cache is in.
The rest `post` of the sequence is there because discipline looks ahead. -/
theorem Shows.run {pre post : List BcOp} (h : Shows st s) (hd : Disciplined s (pre ++ post))
    (hok : ∀ b, .read b ∈ pre → offset_ok b) :
    ∃ st', bc_run st pre = some st' ∧ Shows st' (s.run pre) := by
  induction pre generalizing st s with
  | nil => exact ⟨st, rfl, h⟩
  | cons op pre ih =>
    obtain ⟨hop, hrest⟩ := hd
    obtain ⟨st1, h1, hs1⟩ := h.step hop fun b he => hok b (he ▸ List.mem_cons_self)
    obtain ⟨st', hrun, hs'⟩ := ih hs1 hrest fun b hb => hok b (List.mem_cons_of_mem op hb)
    exact ⟨st', by rw [bc_run, h1, Option.bind_some, hrun], hs'⟩

end Shows

/-! ## 4. No edit is lost

`Correct` is stated without the abstract cache: the block read next is the block on the device with
the edits applied in their order, and after a `bc_sync` so is the device. -/

/-- After the operations `pre`: no block is in the list twice, a block read next is the one on the
device with every edit applied directly to it, and after a `bc_sync` the list is empty and that is
what the device holds. -/
structure Correct (dev : Dev) (pre : List BcOp) (st : Mkfs) : Prop where
  noDup : st.NoDup
  read : ∀ b st', bc_read st b = some st' →
    ∃ it, bc_find st'.bc_head b = some it ∧ it.block = direct pre dev b
  sync : ∀ pre', pre = pre' ++ [.sync] → st.bc_head = [] ∧ st.dev = direct pre dev

/-- The sequence runs through: every block asked for is read, and every state on the way is right.
Every prefix is a state on the way, the empty one and the whole sequence included. -/
def WriteBackCorrect (dev : Dev) (ops : List BcOp) : Prop :=
  ∀ pre post, ops = pre ++ post → ∃ st, bc_run ⟨dev, []⟩ pre = some st ∧ Correct dev pre st

/-- A state that shows the right abstract state is right. -/
theorem Shows.correct {dev : Dev} {pre : List BcOp} {st : Mkfs}
    (h : Shows st ((Store.start dev).run pre))
    (hcur : ((Store.start dev).run pre).cur = direct pre dev) : Correct dev pre st where
  noDup := h.view.noDup
  read b st' hread := by
    have hr := bc_read_reads hread
    obtain ⟨it, hit⟩ := hr.cached
    have hget : st'.get b = it.block := by rw [Mkfs.get, hit]
    refine ⟨it, hit, ?_⟩
    rw [← hget, hr.get, h.view.get, hcur]
  sync pre' he := by
    subst he
    have hstep : (Store.start dev).run (pre' ++ [.sync]) =
        ((Store.start dev).run pre').step .sync := List.foldl_concat ..
    rw [hstep] at h hcur
    have hempty : st.bc_head = [] := by
      cases hl : st.bc_head with
      | nil => rfl
      | cons it next =>
        have hc : st.Cached it.blk_id := ⟨it, by rw [hl, bc_find, if_pos rfl]⟩
        exact absurd (h.cached _ hc) (Set.notMem_empty _)
    refine ⟨hempty, funext fun b => ?_⟩
    rw [← hcur, ← h.view.get b, Mkfs.get, hempty]
    rfl

/-- **The cache loses no edit of a disciplined caller, exactly when every block it is asked for has
an offset.** -/
theorem write_back_correct_iff (dev : Dev) (ops : List BcOp)
    (hd : Disciplined (Store.start dev) ops) :
    WriteBackCorrect dev ops ↔ ∀ b, .read b ∈ ops → offset_ok b := by
  constructor
  · intro h b hb
    obtain ⟨pre, post, rfl⟩ := List.append_of_mem hb
    obtain ⟨st, hrun, -⟩ := h (pre ++ [.read b]) post (by simp)
    have hreach : (⟨dev, []⟩ : Mkfs).InReach := fun _ hc => absurd hc (by simp [Mkfs.Cached, bc_find])
    refine bc_run_inReach hreach hrun b ?_
    rw [bc_run_append] at hrun
    obtain ⟨st1, -, h1⟩ := Option.bind_eq_some_iff.mp hrun
    obtain ⟨st2, h2, h3⟩ := Option.bind_eq_some_iff.mp h1
    obtain rfl := Option.some.inj h3
    exact (bc_read_reads h2).cached
  · rintro hok pre post rfl
    obtain ⟨-, -, hcur⟩ := hd.run (.start dev _)
    obtain ⟨st, hrun, hs⟩ := (Shows.start dev).run hd fun b hb =>
      hok b (List.mem_append_left post hb)
    exact ⟨st, hrun, hs.correct hcur⟩

/-- Read a block, store a byte in it, mark it, write back. -/
def edit_one_block : List BcOp :=
  [.read 7, .edit 7 fun block => Function.update block 0 1, .write 7 false, .sync]

/-- Such a sequence is written back. -/
theorem edit_one_block_written : WriteBackCorrect (fun _ _ => 0) edit_one_block := by
  have hd : Disciplined (Store.start (fun _ _ => 0 : Dev)) edit_one_block :=
    ⟨trivial, ⟨Set.mem_insert _ _, Or.inr (Or.inl rfl)⟩, trivial, trivial, trivial⟩
  refine (write_back_correct_iff _ _ hd).mpr fun b hb => ?_
  obtain rfl : b = 7 := by simpa [edit_one_block] using hb
  decide

/-- **Block 524288, at 2 GiB, cannot be read**: its offset is the first that is not an `int`. -/
theorem block_at_two_gib_not_read :
    Disciplined (Store.start (fun _ _ => 0 : Dev)) [.read 524288] ∧
      ¬WriteBackCorrect (fun _ _ => 0) [.read 524288] := by
  refine ⟨⟨trivial, trivial⟩, fun h => ?_⟩
  obtain ⟨st, hrun, -⟩ := h [.read 524288] [] rfl
  have hbad : ¬offset_ok 524288 := by decide
  have hnone : bc_run ⟨fun _ _ => 0, []⟩ [.read 524288] = none := by
    simp only [bc_run, bc_step, bc_read, bc_find, read_block, if_neg hbad, Option.bind_none]
  exact Option.some_ne_none st (hrun.symm.trans hnone)

end GasFs
