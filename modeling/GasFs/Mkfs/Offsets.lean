/-
# How far an `int` offset reaches

`read_block` and `write_block` seek to `blk_id * GAS_BLOCK_SIZE`, a product of two `int`s.  It is the
true offset of the block up to block 524287, and then overflows: the offset of block 524288 comes out
as `-2147483648`, which `lseek` refuses, and block 1048576 falls on block 0.

This module lists the block numbers a run of `mkfs.gas` passes to the two functions (`mkfs_main_passed`),
up to the first that overflows, and says for which devices none does: `offsets_exact_iff`.  The highest
number is that of the last block of the inode list, or of the first block of the root directory.  The
latter is found in the block map, in front of the end of the map block in which the data zone begins.

The lists are built beside the program: each function of `mkfs.gas` that reaches the device has a
companion `_passed`, with the same branches, that collects the block numbers in the order in which
they are passed.  A step behind a failure contributes nothing (`after`).

For the second kind of number the run is followed through the cache.  Everything `make_rootdir` does
is a sequence of cache operations (`Mkfs.Reaches`), and the cache holds only blocks that were read;
so a block written back has an offset because the same block was read before.
-/
import GasFs.Mkfs.Maps
import GasFs.Mkfs.Super
import GasFs.Mkfs.WriteBack

namespace GasFs

open Bytes BitArray WriteBack

/-! ## 1. The product

The product is `int` times `int`, since both the parameter and the macro are.  `OffsetsExact` states
what one would want of the offsets of a run: they are the true ones, they differ, and none is
negative.  It comes to the same as every block having an offset. -/

/-- `blk_id * GAS_BLOCK_SIZE`, computed in `int`.  The wrap is that of two's complement, which is
how the overflow would show on the usual machine. -/
def int_offset (blk_id : Nat) : Int := int32 (blk_id * GAS_BLOCK_SIZE)

/-- The product is the offset of the block as long as that is an `int`. -/
theorem int_offset_eq_iff {blk_id : Nat} : int_offset blk_id = blk_id * 4096 ↔ offset_ok blk_id := by
  rw [offset_ok_iff]
  simp only [int_offset, int32, GAS_BLOCK_SIZE]
  split <;> omega

/-- Every product is the true offset of its block: no two blocks fall together, and `lseek` is never
asked for a negative position.  Each of the three follows from the first one, but they are what goes
wrong one by one. -/
structure OffsetsExact (blocks : List Nat) : Prop where
  true_offset : ∀ b ∈ blocks, int_offset b = b * 4096
  apart : ∀ b ∈ blocks, ∀ b' ∈ blocks, b ≠ b' → int_offset b ≠ int_offset b'
  seeks : ∀ b ∈ blocks, 0 ≤ int_offset b

/-- The three conditions hold as soon as every block has an offset. -/
theorem offsetsExact_iff {blocks : List Nat} : OffsetsExact blocks ↔ ∀ b ∈ blocks, offset_ok b := by
  refine ⟨fun h b hb => int_offset_eq_iff.mp (h.true_offset b hb), fun h => ?_⟩
  have htrue : ∀ b ∈ blocks, int_offset b = b * 4096 := fun b hb => int_offset_eq_iff.mpr (h b hb)
  refine ⟨htrue, fun b hb b' hb' hne he => hne ?_, fun b hb => ?_⟩
  · rw [htrue b hb, htrue b' hb'] at he
    omega
  · rw [htrue b hb]
    omega

/-! ## 2. The block numbers passed

One companion for each function, in the order of the source.  `bc_read` passes a number on only when
the block is not cached, which is why the state has to be carried along. -/

/-- What is passed after a step, if the run gets that far.  When the step fails the program ends,
and nothing more is passed. -/
def after {α : Type} (r : Option α) (passed : α → List Nat) : List Nat := r.elim [] passed

/-- `bc_read` passes the block on unless it is cached. -/
def bc_read_passed (st : Mkfs) (blk_id : Nat) : List Nat :=
  if (bc_find st.bc_head blk_id).isSome then [] else [blk_id]

/-- `bc_sync` passes the marked blocks on. -/
def bc_sync_passed (st : Mkfs) : List Nat :=
  (st.bc_head.filter BlkCache.dirty).map BlkCache.blk_id

/-- The loop of `allocate_blk`. -/
def allocate_blk_loop_passed (blocks : Nat) : Nat → Nat → Mkfs → List Nat
  | 0, _, _ => []
  | rounds + 1, block, st =>
    bc_read_passed st block ++ after (bc_read st block) fun st =>
      let (n, map) := bitmap_alloc_region (as_map (st.get block)) BITS_PER_BLOCK 0 blocks
      let st := bc_edit st block fun _ => of_map map
      if n = INVALID_NO then allocate_blk_loop_passed blocks rounds (block + 1) st else []

/-- `allocate_blk`. -/
def allocate_blk_passed (gas : FilesysParam) (st : Mkfs) (blocks : Nat) : List Nat :=
  allocate_blk_loop_passed blocks gas.bam_blk BAM_BLOCK_START st

/-- `new_inode`, with `allocate_inode`, `get_inode` and `free_inode`.  The number is given back when
there is no room, which reads the map block again. -/
def new_inode_passed (gas : FilesysParam) (st : Mkfs) (byte_size : Nat) : List Nat :=
  let block_count := (byte_size + GAS_BLOCK_SIZE - 1) / GAS_BLOCK_SIZE
  bc_read_passed st gas.IAM_BLOCK_START ++ after (allocate_inode gas st) fun (ino_id, st) =>
    if ino_id = INVALID_NO then []
    else
      bc_read_passed st gas.INODE_LIST_START ++ after (get_inode gas st ino_id) fun st =>
        allocate_blk_passed gas st block_count ++ after (allocate_blk gas st block_count) fun (n, st) =>
          if n = INVALID_NO then bc_read_passed st gas.IAM_BLOCK_START else []

/-- `gas_add_dentry`; a full directory ends the program, after a `bc_sync`. -/
def gas_add_dentry_passed (gas : FilesysParam) (st : Mkfs) (ino_id : Nat) : List Nat :=
  let ino := get_record (st.get gas.INODE_LIST_START) ino_id
  if GAS_BLOCK_SIZE ≤ ino.i_size then bc_sync_passed st
  else bc_read_passed st (u32 (ino.i_blkaddr blkaddr_0 + ino.i_size / GAS_BLOCK_SIZE))

/-- `make_rootdir`; without a root directory the program ends, after a `bc_sync`. -/
def make_rootdir_passed (gas : FilesysParam) (who : Caller) (st : Mkfs) : List Nat :=
  let byte_size := 64 * sizeof_gas_dir_entry
  new_inode_passed gas st byte_size ++
    after (new_inode gas who st rootdir_mode byte_size) fun (ino_id, st) =>
      if ino_id = INVALID_NO then bc_sync_passed st
      else
        bc_read_passed st gas.INODE_LIST_START ++ after (get_inode gas st ino_id) fun st =>
          gas_add_dentry_passed gas st ino_id ++
            after (gas_add_dentry gas st ino_id [46] GAS_ROOT_INO) fun st =>
              gas_add_dentry_passed gas st ino_id

/-- The direct writes of `main`: the superblock and the three loops. -/
def direct_passed (gas : FilesysParam) : List Nat :=
  0 :: List.range' BAM_BLOCK_START gas.bam_blk ++ List.range' gas.IAM_BLOCK_START gas.iam_blk ++
    List.range' gas.INODE_LIST_START gas.ino_blk

/-- `main`.  The direct writes come first, then what `make_rootdir` reads, then what `bc_sync`
writes. -/
def mkfs_main_passed (who : Caller) (size : Nat) (dev : Dev) : List Nat :=
  let gas := filesys_param size
  let formatted := do
    let dev ← write_block dev 0 (super_block_buffer (init_super_block gas))
    let dev ← init_block_alloc_map gas dev
    let dev ← init_inode_alloc_map gas dev
    init_inode_list gas dev
  direct_passed gas ++ after formatted fun dev =>
    make_rootdir_passed gas who ⟨dev, []⟩ ++ after (make_rootdir gas who ⟨dev, []⟩) bc_sync_passed

/-- What is passed behind a step is passed after a result of it. -/
theorem mem_after {α : Type} {r : Option α} {passed : α → List Nat} {b : Nat} :
    b ∈ after r passed ↔ ∃ a, r = some a ∧ b ∈ passed a := by
  cases r with
  | none => simp [after]
  | some a => simp [after]

/-- `bc_read` passes no other block than its own. -/
theorem eq_of_mem_bc_read_passed {st : Mkfs} {blk_id b : Nat} (h : b ∈ bc_read_passed st blk_id) :
    b = blk_id := by
  unfold bc_read_passed at h
  split at h
  · exact absurd h List.not_mem_nil
  · exact List.mem_singleton.mp h

/-- What is written back was read. -/
theorem Mkfs.InReach.bc_sync_passed {st : Mkfs} (h : st.InReach) {b : Nat}
    (hb : b ∈ bc_sync_passed st) : offset_ok b := by
  obtain ⟨it, hit, rfl⟩ := List.mem_map.mp hb
  refine h it.blk_id ?_
  cases hf : bc_find st.bc_head it.blk_id with
  | none => exact absurd (List.mem_map_of_mem (List.mem_of_mem_filter hit)) (bc_find_eq_none.mp hf)
  | some it' => exact ⟨it', hf⟩

/-! ## 3. The root directory is made through the cache

Each function of the second half of `mkfs.gas` is a sequence of cache operations, one lemma a
function.  What a sequence keeps is kept by the function, `Mkfs.InReach` first of all. -/

/-- A sequence of cache operations leads from one state to the other.  Which operations these are
does not matter: what every operation keeps holds at the end. -/
def Mkfs.Reaches (st st' : Mkfs) : Prop := ∃ ops, bc_run st ops = some st'

section Reaches

variable {gas : FilesysParam} {st st' st'' : Mkfs}

/-- Nothing done. -/
theorem Mkfs.Reaches.refl (st : Mkfs) : st.Reaches st := ⟨[], rfl⟩

/-- One sequence behind another. -/
theorem Mkfs.Reaches.trans (h : st.Reaches st') (h' : st'.Reaches st'') : st.Reaches st'' := by
  obtain ⟨ops, hops⟩ := h
  obtain ⟨ops', hops'⟩ := h'
  exact ⟨ops ++ ops', by rw [bc_run_append, hops, Option.bind_some, hops']⟩

/-- One operation more. -/
theorem Mkfs.Reaches.step (h : st.Reaches st') (op : BcOp) (hop : bc_step st' op = some st'') :
    st.Reaches st'' :=
  h.trans ⟨[op], by rw [bc_run, hop, Option.bind_some, bc_run]⟩

/-- An edit is an operation. -/
theorem Mkfs.Reaches.edit (h : st.Reaches st') (b : Nat) (f : Mem → Mem) :
    st.Reaches (bc_edit st' b f) := h.step (.edit b f) rfl

/-- The search for blocks is a sequence of reads and edits, with a `bc_write` at its end. -/
theorem allocate_blk_loop_reaches {blocks : Nat} : ∀ {rounds i block : Nat} {st st' : Mkfs} {n : Nat},
    allocate_blk_loop blocks rounds i block st = some (n, st') → st.Reaches st' := by
  intro rounds
  induction rounds with
  | zero =>
    intro i block st st' n h
    obtain ⟨-, rfl⟩ := Prod.mk.inj (Option.some.inj h)
    exact .refl st
  | succ rounds ih =>
    intro i block st st' n h
    simp only [allocate_blk_loop, Option.bind_eq_bind, Option.bind_eq_some_iff] at h
    obtain ⟨st1, h1, h⟩ := h
    have hread := (Mkfs.Reaches.refl st).step (.read block) h1
    split at h
    · exact (hread.edit _ _).trans (ih h)
    · obtain ⟨st2, h2, h⟩ := Option.bind_eq_some_iff.mp h
      obtain ⟨-, rfl⟩ := Prod.mk.inj (Option.some.inj h)
      exact (hread.edit _ _).step (.write block false) h2

/-- `allocate_inode` changes one block. -/
theorem allocate_inode_reaches {n : Nat} (h : allocate_inode gas st = some (n, st')) :
    st.Reaches st' ∧ ∀ b, b ≠ gas.IAM_BLOCK_START → st'.get b = st.get b := by
  simp only [allocate_inode, Option.bind_eq_bind, Option.bind_eq_some_iff] at h
  obtain ⟨st1, h1, h⟩ := h
  have hr := bc_read_reads h1
  have hread := (Mkfs.Reaches.refl st).step (.read gas.IAM_BLOCK_START) h1
  have hedit : ∀ f b, b ≠ gas.IAM_BLOCK_START →
      (bc_edit st1 gas.IAM_BLOCK_START f).get b = st.get b := fun f b hne =>
    ((bc_edit_edits f hr.cached).get b).trans ((if_neg hne).trans (hr.get b))
  split at h
  · obtain ⟨-, rfl⟩ := Prod.mk.inj (Option.some.inj h)
    exact ⟨hread.edit _ _, hedit _⟩
  · obtain ⟨st2, h2, h⟩ := Option.bind_eq_some_iff.mp h
    obtain ⟨-, rfl⟩ := Prod.mk.inj (Option.some.inj h)
    have hc := (bc_edit_edits (fun _ => of_map (bitmap_alloc_region
      (as_map (st1.get gas.IAM_BLOCK_START)) BITS_PER_BLOCK GAS_ROOT_INO 1).2) hr.cached).cached
    exact ⟨(hread.edit _ _).step (.write gas.IAM_BLOCK_START false) h2,
      fun b hne => ((bc_write_marks h2 ((hc _).mpr hr.cached)).get b).trans (hedit _ b hne)⟩

theorem free_inode_reaches {ino_id : Nat} (h : free_inode gas st ino_id = some st') :
    st.Reaches st' := by
  simp only [free_inode, Option.bind_eq_bind, Option.bind_eq_some_iff] at h
  obtain ⟨st1, h1, h⟩ := h
  have hread := (Mkfs.Reaches.refl st).step (.read gas.IAM_BLOCK_START) h1
  split at h
  · obtain rfl := Option.some.inj h
    exact hread
  · exact (hread.edit _ _).step (.write gas.IAM_BLOCK_START false) h

theorem get_inode_reaches {ino_id : Nat} (h : get_inode gas st ino_id = some st') :
    st.Reaches st' :=
  (Mkfs.Reaches.refl st).step (.read gas.INODE_LIST_START) (get_inode_reads h)

/-- `new_inode`, whether it gets its blocks or gives the number back. -/
theorem new_inode_reaches {who : Caller} {mode : BitVec 16} {size ino_id : Nat}
    (h : new_inode gas who st mode size = some (ino_id, st')) : st.Reaches st' := by
  simp only [new_inode, Option.bind_eq_bind, Option.bind_eq_some_iff] at h
  obtain ⟨⟨id, st1⟩, h1, h⟩ := h
  have hr1 := (allocate_inode_reaches h1).1
  dsimp only at h
  split at h
  · obtain ⟨-, rfl⟩ := Prod.mk.inj (Option.some.inj h)
    exact hr1
  · simp only [Option.bind_eq_some_iff] at h
    obtain ⟨st2, h2, ⟨n, st3⟩, h3, h⟩ := h
    have hr3 := (hr1.trans (get_inode_reaches h2)).trans (allocate_blk_loop_reaches h3)
    dsimp only at h
    split at h
    · obtain ⟨st4, h4, h⟩ := Option.bind_eq_some_iff.mp h
      obtain ⟨-, rfl⟩ := Prod.mk.inj (Option.some.inj h)
      exact (hr3.edit _ _).trans (free_inode_reaches h4)
    · obtain ⟨st4, h4, h⟩ := Option.bind_eq_some_iff.mp h
      obtain ⟨-, rfl⟩ := Prod.mk.inj (Option.some.inj h)
      exact ((hr3.edit _ _).edit _ _).step (.write gas.INODE_LIST_START false) h4

theorem gas_add_dentry_reaches {ino_id new_ino : Nat} {name : List UInt8}
    (h : gas_add_dentry gas st ino_id name new_ino = some st') : st.Reaches st' := by
  simp only [gas_add_dentry] at h
  split at h
  · simp at h
  · simp only [Option.bind_eq_bind, Option.bind_eq_some_iff] at h
    obtain ⟨st1, h1, h⟩ := h
    exact ((((Mkfs.Reaches.refl st).step (.read _) h1).edit _ _).edit _ _).step
      (.write _ false) h

/-- `make_rootdir` is `new_inode` and two entries. -/
theorem make_rootdir_reaches {who : Caller} (h : make_rootdir gas who st = some st') :
    st.Reaches st' := by
  simp only [make_rootdir, Option.bind_eq_bind, Option.bind_eq_some_iff] at h
  obtain ⟨⟨ino_id, st1⟩, h1, h⟩ := h
  dsimp only at h
  split at h
  · simp at h
  · simp only [Option.bind_eq_some_iff] at h
    obtain ⟨st2, h2, st3, h3, h4⟩ := h
    exact (((new_inode_reaches h1).trans (get_inode_reaches h2)).trans
      (gas_add_dentry_reaches h3)).trans (gas_add_dentry_reaches h4)

end Reaches

/-! ## 4. The block of the root directory

The block of the root directory is the only number that is not known from the size of the device.
`allocate_blk` finds it in the maps just written, where the first clear bits are those of the data
zone. -/

section Root

variable {gas : FilesysParam} {dev dev4 : Dev} {st st' : Mkfs} {n : Nat}

/-- **The root directory begins in the map block in which the data zone begins**, if it gets a block
at all: the room of a later map block is at position 0, and that counts as none. -/
theorem Formatted.root_offset_ok (h : Formatted gas dev dev4) (hst : gas.data_st ≤ 524288)
    (hmaps : ∀ m < gas.bam_blk, st.get (1 + m) = dev4 (1 + m))
    (hrun : allocate_blk gas st 5 = some (n, st')) : offset_ok n := by
  rw [offset_ok_iff]
  rcases allocate_blk_loop_cases 5 gas.bam_blk 0 BAM_BLOCK_START st with
    ⟨m, hm, hne, -, -, st1, hrun', -⟩ | ⟨-, st1, hrun', -⟩ | ⟨m, hm, -, -, hrun'⟩
  · obtain ⟨rfl, -⟩ := Prod.mk.inj (Option.some.inj (hrun.symm.trans hrun'))
    rw [hmaps m hm] at hne ⊢
    rcases alloc_region_cases (dev4 (1 + m)) (by decide : 0 < 5) with ⟨p, hp, hpos, -⟩ | ⟨-, hz, -⟩
    · rw [hpos] at hne ⊢
      have hfits := hp.fits
      have hbit : ∀ k < 32768, map_bit (dev4 (1 + m)) k = false →
          gas.data_st ≤ m * 32768 + k ∧ m * 32768 + k < gas.blk_cnt := by
        intro k hk hclear
        rw [h.bam m hm k hk] at hclear
        have hno := of_decide_eq_false hclear
        omega
      have hlast := (hbit (p + 4) (by omega)
        (map_bit_of_clearRun hp.clear (by omega) (by omega))).2
      -- position 0 has no room, so the data zone begins behind it
      have hbegin : m * 32768 < gas.data_st := by
        by_contra hlt
        refine hp.first 0 (Nat.pos_of_ne_zero hne) fun j h1 h2 => ?_
        rw [bits_as_map, h.bam m hm j (by omega)]
        exact decide_eq_false (by omega)
      rw [u32_of_lt (by omega)]
      omega
    · exact absurd hz hne
  · obtain ⟨rfl, -⟩ := Prod.mk.inj (Option.some.inj (hrun.symm.trans hrun'))
    decide
  · rw [allocate_blk, hrun'] at hrun
    simp at hrun

/-- The search passes map blocks and nothing else. -/
theorem allocate_blk_loop_passed_mem {blocks b : Nat} : ∀ {rounds block : Nat} {st : Mkfs},
    b ∈ allocate_blk_loop_passed blocks rounds block st → b < block + rounds := by
  intro rounds
  induction rounds with
  | zero => exact fun h => absurd h List.not_mem_nil
  | succ rounds ih =>
    intro block st h
    rcases List.mem_append.mp h with h | h
    · obtain rfl := eq_of_mem_bc_read_passed h
      omega
    · obtain ⟨st1, -, h⟩ := mem_after.mp h
      dsimp only at h
      split at h
      · have hlt := ih h
        omega
      · exact absurd h List.not_mem_nil

/-- The numbers `new_inode` passes are those of the maps and of the inode list. -/
theorem new_inode_passed_mem {size b : Nat} (h : b ∈ new_inode_passed gas st size) :
    b ≤ gas.INODE_LIST_START := by
  simp only [FilesysParam.INODE_LIST_START, FilesysParam.IAM_BLOCK_START]
  rcases List.mem_append.mp h with h | h
  · obtain rfl := eq_of_mem_bc_read_passed h
    exact Nat.le_add_right _ _
  · obtain ⟨⟨ino_id, st1⟩, -, h⟩ := mem_after.mp h
    dsimp only at h
    split at h
    · exact absurd h List.not_mem_nil
    · rcases List.mem_append.mp h with h | h
      · obtain rfl := eq_of_mem_bc_read_passed h
        exact Nat.le_refl _
      · obtain ⟨st2, -, h⟩ := mem_after.mp h
        rcases List.mem_append.mp h with h | h
        · have hlt := allocate_blk_loop_passed_mem h
          omega
        · obtain ⟨⟨n, st3⟩, -, h⟩ := mem_after.mp h
          dsimp only at h
          split at h
          · obtain rfl := eq_of_mem_bc_read_passed h
            exact Nat.le_add_right _ _
          · exact absurd h List.not_mem_nil

/-- An entry goes to the block its directory begins with. -/
theorem gas_add_dentry_passed_mem {ino_id b : Nat} (hreach : st.InReach)
    (hblk : offset_ok ((get_record (st.get gas.INODE_LIST_START) ino_id).i_blkaddr blkaddr_0))
    (h : b ∈ gas_add_dentry_passed gas st ino_id) : offset_ok b := by
  simp only [gas_add_dentry_passed] at h
  split at h
  · exact hreach.bc_sync_passed h
  · next hsize =>
    obtain rfl := eq_of_mem_bc_read_passed h
    rw [offset_ok_iff] at hblk
    rw [Nat.div_eq_of_lt (Nat.lt_of_not_le hsize), Nat.add_zero, u32_of_lt (by omega),
      offset_ok_iff]
    exact hblk

/-- **All numbers `make_rootdir` passes have an offset**, when the data zone begins in front of the
first block that has none. -/
theorem make_rootdir_passed_mem {who : Caller} {b : Nat} (h : Formatted gas dev dev4)
    (hst : gas.data_st ≤ 524288) (hlist : offset_ok gas.INODE_LIST_START)
    (hb : b ∈ make_rootdir_passed gas who ⟨dev4, []⟩) : offset_ok b := by
  have hempty : (⟨dev4, []⟩ : Mkfs).InReach := fun _ hc => absurd hc (by simp [Mkfs.Cached, bc_find])
  have hreach : ∀ {st : Mkfs}, (⟨dev4, []⟩ : Mkfs).Reaches st → st.InReach := by
    intro st h
    obtain ⟨ops, hops⟩ := h
    exact bc_run_inReach hempty hops
  rcases List.mem_append.mp hb with hb | hb
  · exact offset_ok_of_le hlist (new_inode_passed_mem hb)
  · obtain ⟨⟨ino_id, st1⟩, h1, hb⟩ := mem_after.mp hb
    have hr1 := new_inode_reaches h1
    dsimp only at hb
    split at hb
    · exact (hreach hr1).bc_sync_passed hb
    · next hino =>
      rcases List.mem_append.mp hb with hb | hb
      · obtain rfl := eq_of_mem_bc_read_passed hb
        exact hlist
      · obtain ⟨st2, h2, hb⟩ := mem_after.mp hb
        have hr2 := hr1.trans (get_inode_reaches h2)
        obtain ⟨sta, stb, stc, n, -, -, ha, hb', hc, -, -, hsize, hblk⟩ := new_inode_calls h1 hino
        have hn : offset_ok n := by
          refine h.root_offset_ok hst (fun m hm => ?_) hc
          rw [(bc_read_reads (get_inode_reads hb')).get, (allocate_inode_reaches ha).2]
          · rfl
          · simp only [FilesysParam.IAM_BLOCK_START, BAM_BLOCK_START]
            omega
        rw [← (bc_read_reads (get_inode_reads h2)).get] at hsize hblk
        rcases List.mem_append.mp hb with hb | hb
        · exact gas_add_dentry_passed_mem (hreach hr2) (hblk ▸ hn) hb
        · obtain ⟨st3, h3, hb⟩ := mem_after.mp hb
          obtain ⟨-, -, m, hm, hget⟩ := gas_add_dentry_passes (S := fun _ => True)
            (bc_read_reads (get_inode_reads h2)).cached h3 fun _ _ _ => trivial
          refine gas_add_dentry_passed_mem (hreach (hr2.trans (gas_add_dentry_reaches h3))) ?_ hb
          rw [hget, get_edit_record _ _ _ (get_record_fits m ino_id).grow]
          -- the first entry may have gone over the record, but then only zeroed the number
          have hle : (get_record m ino_id).i_blkaddr blkaddr_0 ≤ n := by
            rcases hm with rfl | rfl
            · exact Nat.le_of_eq hblk
            · rw [hsize, Nat.zero_mod]
              exact Nat.le_trans (first_block_put_dentry _ _ _) (Nat.le_of_eq hblk)
          exact offset_ok_of_le hn hle

end Root

/-! ## 5. Which devices are in reach

The data zone of a device begins behind about one block in 256, so the limit on its begin is a limit
on the size: 132919295 blocks.  One block more, and the inode list itself reaches block 524288. -/

/-- The data zone of a device begins at block 524288 or in front of it when the device has at most
132919295 blocks, a little over 507 GiB. One block of the inode list holds 64 inodes, and there is
an inode for four blocks. -/
theorem data_st_le_iff {size : Nat} :
    (filesys_param size).data_st ≤ 524288 ↔ (filesys_param size).blk_cnt ≤ 132919295 := by
  simp only [filesys_param, BITS_PER_BLOCK, GAS_BLOCK_SIZE, INODES_PER_BLOCK, sizeof_gas_inode]
  generalize size / 4096 = n
  omega

/-- Its maps end far in front of that. -/
theorem inode_list_reach {size : Nat} (h : (filesys_param size).blk_cnt ≤ 132919295) :
    offset_ok (filesys_param size).INODE_LIST_START := by
  obtain ⟨-, -, -, hbam, -, hiam, hino⟩ := filesys_param_counts size
  generalize filesys_param size = gas at *
  have hb : gas.bam_blk ≤ 4057 := by omega
  have hi : gas.iam_blk ≤ 1015 := by omega
  simp only [offset_ok_iff, FilesysParam.INODE_LIST_START, FilesysParam.IAM_BLOCK_START,
    BAM_BLOCK_START]
  omega

theorem lt_or_range {b n k : Nat} : b < n ∨ (n ≤ b ∧ b < n + k) ↔ b < n + k := by
  omega

/-- The numbers of the direct writes are those in front of the data zone. -/
theorem mem_direct_passed {gas : FilesysParam} {b : Nat}
    (hst : gas.data_st = gas.INODE_LIST_START + gas.ino_blk) :
    b ∈ direct_passed gas ↔ b < gas.data_st := by
  rw [hst, ← lt_or_range, FilesysParam.INODE_LIST_START, ← lt_or_range, FilesysParam.IAM_BLOCK_START,
    ← lt_or_range, BAM_BLOCK_START, Nat.lt_one_iff]
  simp only [direct_passed, List.cons_append, List.mem_cons, List.mem_append, List.mem_range'_1,
    or_assoc]

/-- On a device of more blocks the inode list goes past block 524287. -/
theorem exists_overflow_of_large {who : Caller} {size : Nat} {dev : Dev}
    (hlarge : 132919295 < (filesys_param size).blk_cnt) :
    ∃ b ∈ mkfs_main_passed who size dev, ¬offset_ok b := by
  have hst : 524288 < (filesys_param size).data_st :=
    Nat.lt_of_not_le fun hle => Nat.not_le.mpr hlarge (data_st_le_iff.mp hle)
  refine ⟨524288, List.mem_append_left _ ((mem_direct_passed (filesys_param_counts size).1).mpr hst),
    fun hok => ?_⟩
  rw [offset_ok_iff] at hok
  exact absurd hok (Nat.lt_irrefl _)

/-- On a device of no more than these every number passed has an offset.  The blocks of the maps and
of the inode list lie in front of the data zone. -/
theorem passed_offset_ok {who : Caller} {size b : Nat} {dev : Dev}
    (hle : (filesys_param size).blk_cnt ≤ 132919295) (hb : b ∈ mkfs_main_passed who size dev) :
    offset_ok b := by
  have hst := data_st_le_iff.mpr hle
  have hoff : ∀ b < (filesys_param size).data_st, offset_ok b := fun b hb =>
    offset_ok_iff.mpr (Nat.lt_of_lt_of_le hb hst)
  rcases List.mem_append.mp hb with hb | hb
  · -- the superblock and the three loops
    exact hoff b ((mem_direct_passed (filesys_param_counts size).1).mp hb)
  · obtain ⟨dev1, dev2, dev3, dev4, h1, h2, h3, h4, hblank⟩ := formatted_spec dev hoff
    obtain ⟨dev4', hrun, hb⟩ := mem_after.mp hb
    simp only [Option.bind_eq_bind, Option.bind_eq_some_iff] at hrun
    obtain ⟨dev1', h1', dev2', h2', dev3', h3', h4'⟩ := hrun
    obtain rfl := Option.some.inj (h1.symm.trans h1')
    obtain rfl := Option.some.inj (h2.symm.trans h2')
    obtain rfl := Option.some.inj (h3.symm.trans h3')
    obtain rfl := Option.some.inj (h4.symm.trans h4')
    rcases List.mem_append.mp hb with hb | hb
    · -- the root directory
      exact make_rootdir_passed_mem hblank hst (inode_list_reach hle) hb
    · -- `bc_sync` writes back what was read
      obtain ⟨st, hrun, hb⟩ := mem_after.mp hb
      obtain ⟨ops, hops⟩ := make_rootdir_reaches hrun
      have hreach : st.InReach :=
        bc_run_inReach (fun _ hc => absurd hc (by simp [Mkfs.Cached, bc_find])) hops
      exact hreach.bc_sync_passed hb

/-- **The block offsets of a run are all exact when the device has at most 132919295 blocks, and only
then.** -/
theorem offsets_exact_iff (who : Caller) (size : Nat) (dev : Dev) :
    OffsetsExact (mkfs_main_passed who size dev) ↔ (filesys_param size).blk_cnt ≤ 132919295 := by
  rw [offsetsExact_iff]
  constructor
  · intro h
    by_contra hlarge
    obtain ⟨b, hb, hbad⟩ := exists_overflow_of_large (Nat.lt_of_not_le hlarge)
    exact hbad (h b hb)
  · intro hle b hb
    exact passed_offset_ok hle hb

/-- **On a device of 1 TiB a block of the inode list is written at position `-2147483648`.** -/
theorem one_tib_offset_overflows :
    524288 ∈ mkfs_main_passed ⟨0, 0, 0⟩ (1024 ^ 4) (fun _ _ => 0) ∧
      int_offset 524288 = -2147483648 ∧
      ¬OffsetsExact (mkfs_main_passed ⟨0, 0, 0⟩ (1024 ^ 4) (fun _ _ => 0)) := by
  have hmem : 524288 ∈ mkfs_main_passed ⟨0, 0, 0⟩ (1024 ^ 4) (fun _ _ => 0) :=
    List.mem_append_left _ ((mem_direct_passed (filesys_param_counts _).1).mpr (by decide))
  have hoff : int_offset 524288 = -2147483648 := by decide
  refine ⟨hmem, hoff, fun h => ?_⟩
  have hseek := h.seeks 524288 hmem
  rw [hoff] at hseek
  exact absurd hseek (by decide)

end GasFs
