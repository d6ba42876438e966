/-
# The image `mkfs.gas` leaves on the device: `makefs/mkfs.c`

`main` writes the superblock, the two bitmaps and an empty inode list straight to the device, then
makes the root directory through the block cache and writes the cache back.

Each part says what it did to the device or to the cache in terms of blocks: `init_alloc_map_spec`
for the bitmaps, `init_inode_list_spec`, `allocate_blk_spec`, `allocate_inode_spec`.  The result of
the whole program is `mkfs_image`.  A step that the C program takes with undefined behaviour, or
that ends it with `exit`, has no result here.

The first three sections are the program, function by function, and are translated from the source.
The last three say what each function did.  A loop of the source is a recursion on its rounds that
carries the loop's variables, and its specification is an induction on the rounds with the variables
general; the two map loops are one definition, since they differ in the counts they are given.

The buffers of the source are blocks here, with two readings.  As an array of words a block is what
the bitmap functions work on, and as an array of records it is a block of the inode list.
-/
import GasFs.InodeTable
import GasFs.Mkfs.Bitmap
import GasFs.Mkfs.Cache

namespace GasFs

open Bytes BitArray

/-! ## 1. Views of a block

Changing the view changes no byte: `as_map` and `of_map` regroup the bits, and `map_bit` of the
block is `bits` of the array.  A record is sixteen words of a block, of which the first is mode and
link count. -/

/-- A block as an array of 64-bit words, `(u64 *)buffer`.  The words are little-endian, so bit `k`
of the array is bit `k % 8` of byte `k / 8`. -/
def as_map (block : Mem) : Nat → BitVec 64 := regroup 64 fun a => (block a).toBitVec

/-- The block such an array is. -/
def of_map (map : Nat → BitVec 64) : Mem := fun a => ⟨regroup 8 map a⟩

/-- The bits of a block are the same in both views. -/
theorem bits_as_map (block : Mem) (k : Nat) : bits (as_map block) k = map_bit block k :=
  bits_regroup (by norm_num) _ k

/-- And on the way back. -/
theorem map_bit_of_map (map : Nat → BitVec 64) (k : Nat) : map_bit (of_map map) k = bits map k :=
  bits_regroup (by norm_num) map k

/-- The record of an inode in a block of the inode list. -/
def get_record (block : Mem) (ino_id : Nat) : GasInode :=
  GasInode.of_words fun k => le32 block (sizeof_gas_inode * ino_id + 4 * k)

/-- Store a record.  Only the 64 bytes of the record change. -/
def put_record (block : Mem) (ino_id : Nat) (ino : GasInode) : Mem := fun a =>
  let base := sizeof_gas_inode * ino_id
  if h : base ≤ a ∧ a < base + sizeof_gas_inode then
    UInt8.ofNat (ino.words ⟨(a - base) / 4, by simp only [sizeof_gas_inode] at *; omega⟩ /
      256 ^ ((a - base) % 4))
  else block a

/-- Change fields of a record in place. -/
def edit_record (ino_id : Nat) (f : GasInode → GasInode) (block : Mem) : Mem :=
  put_record block ino_id (f (get_record block ino_id))

/-! ## 2. Straight to the device

The superblock, the maps and the inode list are written block by block with `write_block`, past the
cache.  Nothing of it is read again before the cache is empty, so the two ways to the device do not
meet. -/

/-- The buffer of `init_super_block`: seven words, the rest zero. -/
def super_block_buffer (sb : SuperBlock) : Mem :=
  putLe32 (putLe32 (putLe32 (putLe32 (putLe32 (putLe32 (putLe32 (fun _ => 0)
    0 sb.s_magic) 4 sb.s_blocksize) 8 sb.s_bam_blocks) 12 sb.s_iam_blocks) 16 sb.s_inode_blocks)
    20 sb.s_nblocks) 24 sb.s_ninodes

/-- The first half of a round of the two map loops: the buffer with the bits that are preallocated,
and how many are left to preallocate.  A buffer that is full is filled with `memset`, a partial one
with `bitmap_set`, and behind the last of them come buffers of zeros. -/
def map_buffer (preallocated : Nat) : Mem × Nat :=
  if BITS_PER_BLOCK < preallocated then (fun _ => 0xff, preallocated - BITS_PER_BLOCK)
  else
    (if preallocated ≠ 0 then of_map (bitmap_set (as_map fun _ => 0) 0 preallocated)
      else fun _ => 0, 0)

/-- The loop of `init_block_alloc_map` and `init_inode_alloc_map` over the `maps` blocks of a bitmap
for `cnt` objects, with its variables `i`, `preallocated` and `block`.  The padding is set in the
last round only, and only if the count does not fill the last block. -/
def init_alloc_map_loop (maps cnt : Nat) : Nat → Nat → Nat → Nat → Dev → Option Dev
  | 0, _, _, _, dev => some dev
  | n + 1, i, preallocated, block, dev => do
    let (buffer, preallocated) := map_buffer preallocated
    let buffer :=
      if i = maps ∧ cnt ≠ maps * BITS_PER_BLOCK then
        let bits := maps * BITS_PER_BLOCK - cnt
        of_map (bitmap_set (as_map buffer) (BITS_PER_BLOCK - bits) bits)
      else buffer
    let dev ← write_block dev block buffer
    init_alloc_map_loop maps cnt n (i + 1) preallocated (block + 1) dev

/-- `init_block_alloc_map`. -/
def init_block_alloc_map (gas : FilesysParam) (dev : Dev) : Option Dev :=
  init_alloc_map_loop gas.bam_blk gas.blk_cnt gas.bam_blk 1 gas.data_st BAM_BLOCK_START dev

/-- `init_inode_alloc_map`. -/
def init_inode_alloc_map (gas : FilesysParam) (dev : Dev) : Option Dev :=
  init_alloc_map_loop gas.iam_blk gas.ino_cnt gas.iam_blk 1 1 gas.IAM_BLOCK_START dev

/-- The loop of `init_inode_list`. -/
def init_inode_list_loop : Nat → Nat → Dev → Option Dev
  | 0, _, dev => some dev
  | n + 1, block, dev => do
    let dev ← write_block dev block fun _ => 0
    init_inode_list_loop n (block + 1) dev

/-- `init_inode_list`. -/
def init_inode_list (gas : FilesysParam) (dev : Dev) : Option Dev :=
  init_inode_list_loop gas.ino_blk gas.INODE_LIST_START dev

/-! ## 3. Through the cache

`allocate_blk` and `allocate_inode` change a map block in the cache; `get_inode` returns a pointer
into a cached block of the inode list, through which the record is filled in.  The model keeps the
pointer apart as the block and the number of the record, and a store through it is `bc_edit` with
`edit_record`. -/

/-- `INVALID_NO`: how `allocate_blk` and `allocate_inode` say that there is none. -/
abbrev INVALID_NO : Nat := 0

/-- The loop of `allocate_blk`, with its variables `i` and `block`.  A device of one block or more
has a map block, so `n` is never returned unset.  The block number it returns is cut to 32 bits, as
the source stores it in a `u32`. -/
def allocate_blk_loop (blocks : Nat) : Nat → Nat → Nat → Mkfs → Option (Nat × Mkfs)
  | 0, _, _, st => some (INVALID_NO, st)
  | rounds + 1, i, block, st => do
    let st ← bc_read st block
    let (n, map) := bitmap_alloc_region (as_map (st.get block)) BITS_PER_BLOCK 0 blocks
    let st := bc_edit st block fun _ => of_map map
    if n = INVALID_NO then allocate_blk_loop blocks rounds (i + 1) (block + 1) st
    else
      let st ← bc_write st block false
      return (u32 (n + i * BITS_PER_BLOCK), st)

/-- `allocate_blk`. -/
def allocate_blk (gas : FilesysParam) (st : Mkfs) (blocks : Nat) : Option (Nat × Mkfs) :=
  allocate_blk_loop blocks gas.bam_blk 0 BAM_BLOCK_START st

/-- `allocate_inode`: the first clear bit of the first block of the inode map.  The search begins
at number 1, so 0 stands for "none" alone. -/
def allocate_inode (gas : FilesysParam) (st : Mkfs) : Option (Nat × Mkfs) := do
  let st ← bc_read st gas.IAM_BLOCK_START
  let (n, map) :=
    bitmap_alloc_region (as_map (st.get gas.IAM_BLOCK_START)) BITS_PER_BLOCK GAS_ROOT_INO 1
  let st := bc_edit st gas.IAM_BLOCK_START fun _ => of_map map
  if n = INVALID_NO then return (n, st)
  else
    let st ← bc_write st gas.IAM_BLOCK_START false
    return (n, st)

/-- `free_inode`, for a directory whose blocks could not be allocated. -/
def free_inode (gas : FilesysParam) (st : Mkfs) (ino_id : Nat) : Option Mkfs := do
  let st ← bc_read st gas.IAM_BLOCK_START
  if INODES_PER_BLOCK ≤ ino_id then return st
  else
    let st := bc_edit st gas.IAM_BLOCK_START fun block =>
      of_map (bitmap_free_region (as_map block) ino_id 1)
    bc_write st gas.IAM_BLOCK_START false

/-- `get_inode`: the block of the inode list is cached; there is no result for the null pointer.
`make_rootdir` asks for number 1 only, which is in the first block of the list. -/
def get_inode (gas : FilesysParam) (st : Mkfs) (ino_id : Nat) : Option Mkfs := do
  let st ← bc_read st gas.INODE_LIST_START
  if INODES_PER_BLOCK ≤ ino_id then none else return st

/-- Who runs `mkfs.gas`, and when.  The owner and the times of the root directory come from
there. -/
structure Caller where
  uid : Nat
  gid : Nat
  time : Nat

/-- `new_inode`: a number, a region of blocks, and a record with the first of them.  Without the
region the number is given back. -/
def new_inode (gas : FilesysParam) (who : Caller) (st : Mkfs) (mode : BitVec 16) (byte_size : Nat) :
    Option (Nat × Mkfs) := do
  let block_count := (byte_size + GAS_BLOCK_SIZE - 1) / GAS_BLOCK_SIZE
  let (ino_id, st) ← allocate_inode gas st
  if ino_id = INVALID_NO then return (ino_id, st)
  else
    let st ← get_inode gas st ino_id
    let (n, st) ← allocate_blk gas st block_count
    let st := bc_edit st gas.INODE_LIST_START <| edit_record ino_id fun ino =>
      { ino with i_blkaddr := Function.update ino.i_blkaddr blkaddr_0 n }
    if n = INVALID_NO then
      let st ← free_inode gas st ino_id
      return (INVALID_NO, st)
    else
      let st := bc_edit st gas.INODE_LIST_START <| edit_record ino_id fun ino =>
        { ino with
          i_size := 0
          i_nlink := if S_ISDIR mode then 2 else 1
          i_uid := u32 who.uid
          i_gid := u32 who.gid
          i_mode := mode
          i_ctime := u32 who.time
          i_atime := u32 who.time
          i_mtime := u32 who.time }
      let st ← bc_write st gas.INODE_LIST_START false
      return (ino_id, st)

/-- The record `gas_add_dentry` writes: `strncpy`, the closing NUL, the number. -/
def put_dentry (offset : Nat) (name : List UInt8) (new_ino : Nat) (block : Mem) : Mem :=
  let block := strncpy block offset (ofList name) (GAS_MAX_NAME_LEN - 1)
  let block := Function.update block (offset + GAS_MAX_NAME_LEN - 1) 0
  putLe32 block (offset + GAS_MAX_NAME_LEN) new_ino

/-- `gas_add_dentry`; a full directory ends the program. -/
def gas_add_dentry (gas : FilesysParam) (st : Mkfs) (ino_id : Nat) (name : List UInt8)
    (new_ino : Nat) : Option Mkfs := do
  let ino := get_record (st.get gas.INODE_LIST_START) ino_id
  if GAS_BLOCK_SIZE ≤ ino.i_size then none
  else
    let blk_id := u32 (ino.i_blkaddr blkaddr_0 + ino.i_size / GAS_BLOCK_SIZE)
    let offset := ino.i_size % GAS_BLOCK_SIZE
    let st ← bc_read st blk_id
    let st := bc_edit st blk_id (put_dentry offset name new_ino)
    let st := bc_edit st gas.INODE_LIST_START <| edit_record ino_id fun ino =>
      { ino with i_size := u32 (ino.i_size + sizeof_gas_dir_entry) }
    bc_write st blk_id false

/-- `S_IFDIR | 0755`. -/
abbrev rootdir_mode : BitVec 16 := 0x41ED#16

/-- `make_rootdir`; without a root directory the program ends.  Both exits of the source behind a
failure write the cache back and end the program. -/
def make_rootdir (gas : FilesysParam) (who : Caller) (st : Mkfs) : Option Mkfs := do
  let (ino_id, st) ← new_inode gas who st rootdir_mode (64 * sizeof_gas_dir_entry)
  if ino_id = INVALID_NO then none
  else
    let st ← get_inode gas st ino_id
    let st ← gas_add_dentry gas st ino_id [46] GAS_ROOT_INO
    gas_add_dentry gas st ino_id [46, 46] GAS_ROOT_INO

/-- `main`, on a device of `size` bytes: what is on the device in the end.  The checks in front of
it, of the arguments and of the device file, are not modelled. -/
def mkfs_main (who : Caller) (size : Nat) (dev : Dev) : Option Dev := do
  let gas := filesys_param size
  let dev ← write_block dev 0 (super_block_buffer (init_super_block gas))
  let dev ← init_block_alloc_map gas dev
  let dev ← init_inode_alloc_map gas dev
  let dev ← init_inode_list gas dev
  let st ← make_rootdir gas who ⟨dev, []⟩
  let st ← bc_sync st
  return st.dev

/-! ## 4. The bitmaps and the inode list

The variable `preallocated` counts down by a block's worth of bits in each round, and the last round
sets the padding.  So a bit of map block `m` is set when its object is in use from the start or
there is no such object. -/

/-- In front of a block with an offset every block has one. -/
theorem offset_ok_of_le {b b' : Nat} (h : offset_ok b') (hle : b ≤ b') : offset_ok b :=
  Nat.lt_of_le_of_lt (Nat.mul_le_mul_right _ hle) h

/-- A block with an offset is written. -/
theorem write_block_of_ok {b : Nat} (h : offset_ok b) (dev : Dev) (block : Mem) :
    write_block dev b block = some (Function.update dev b block) := if_pos h

/-- The buffer has its preallocated bits set, and the rest of them is left for the next one. -/
theorem map_buffer_spec (preallocated : Nat) :
    (map_buffer preallocated).2 = preallocated - 32768 ∧
      ∀ k < 32768, map_bit (map_buffer preallocated).1 k = decide (k < preallocated) := by
  have hzero : ∀ k, map_bit (fun _ => 0) k = false := fun k => BitVec.getLsbD_zero
  unfold map_buffer
  simp only [BITS_PER_BLOCK, GAS_BLOCK_SIZE]
  split
  · next h =>
    refine ⟨rfl, fun k hk => ?_⟩
    have hall : ∀ j < 8, (0xff#8).getLsbD j = true := by decide
    rw [decide_eq_true (by omega)]
    exact hall _ (Nat.mod_lt k (by norm_num))
  · next h =>
    refine ⟨by omega, fun k hk => ?_⟩
    split
    · rw [map_bit_of_map, bits_bitmap_set, bits_as_map, hzero, Bool.or_false]
      exact decide_eq_decide.mpr (by omega)
    · next hz =>
      rw [hzero, decide_eq_false (by omega)]

/-- From round `j + 1` on: the blocks written, bit by bit, and the others untouched.  The blocks
behind the map are not touched, and neither are those in front. -/
theorem init_alloc_map_loop_spec {maps cnt : Nat} (hcnt : cnt ≤ maps * 32768)
    (hlast : maps * 32768 < cnt + 32768) : ∀ (n j preallocated block : Nat) (dev : Dev),
    j + n = maps → (∀ b < block + n, offset_ok b) →
    ∃ dev', init_alloc_map_loop maps cnt n (j + 1) preallocated block dev = some dev' ∧
      (∀ b, b < block ∨ block + n ≤ b → dev' b = dev b) ∧
      ∀ m < n, ∀ k < 32768, map_bit (dev' (block + m)) k =
        decide (m * 32768 + k < preallocated ∨ cnt ≤ (j + m) * 32768 + k) := by
  -- the rounds still to come are the induction, the loop's variables are general
  intro n
  induction n with
  | zero => exact fun j preallocated block dev _ _ =>
      ⟨dev, rfl, fun _ _ => rfl, fun m hm => absurd hm (Nat.not_lt_zero m)⟩
  | succ n ih =>
    intro j preallocated block dev hj hoff
    obtain ⟨hleft, hbits⟩ := map_buffer_spec preallocated
    simp only [init_alloc_map_loop, write_block_of_ok (hoff block (by omega)), Option.bind_eq_bind,
      Option.bind_some, hleft]
    generalize hbuf : (if j + 1 = maps ∧ cnt ≠ maps * BITS_PER_BLOCK then _ else _) = buffer
    have hbuffer : ∀ k < 32768, map_bit buffer k =
        decide (k < preallocated ∨ cnt ≤ j * 32768 + k) := by
      intro k hk
      rw [← hbuf]
      simp only [BITS_PER_BLOCK, GAS_BLOCK_SIZE]
      split
      · rw [map_bit_of_map, bits_bitmap_set, bits_as_map, hbits k hk, ← Bool.decide_or]
        exact decide_eq_decide.mpr (by omega)
      · rw [hbits k hk]
        exact decide_eq_decide.mpr (by omega)
    obtain ⟨dev', hrun, hother, hmap⟩ := ih (j + 1) (preallocated - 32768) (block + 1)
      (Function.update dev block buffer) (by omega) fun b hb => hoff b (by omega)
    refine ⟨dev', hrun, fun b hb => ?_, fun m hm k hk => ?_⟩
    · rw [hother b (by omega), Function.update_of_ne (by omega)]
    · rcases m with _ | m
      · rw [Nat.add_zero, hother block (by omega), Function.update_self, hbuffer k hk]
        exact decide_eq_decide.mpr (by omega)
      · rw [show block + (m + 1) = block + 1 + m by omega, hmap m (by omega) k hk]
        exact decide_eq_decide.mpr (by omega)

/-- The blocks of the inode list are zeroed. -/
theorem init_inode_list_loop_spec : ∀ (n block : Nat) (dev : Dev),
    (∀ b < block + n, offset_ok b) →
    ∃ dev', init_inode_list_loop n block dev = some dev' ∧
      ∀ b, dev' b = if block ≤ b ∧ b < block + n then fun _ => 0 else dev b := by
  intro n
  induction n with
  | zero => exact fun block dev _ => ⟨dev, rfl, fun b => (if_neg (by omega)).symm⟩
  | succ n ih =>
    intro block dev hoff
    obtain ⟨dev', hrun, hdev⟩ := ih (block + 1) (Function.update dev block fun _ => 0)
      fun b hb => hoff b (by omega)
    refine ⟨dev', ?_, fun b => ?_⟩
    · simp only [init_inode_list_loop, write_block_of_ok (hoff block (by omega)),
        Option.bind_eq_bind, Option.bind_some, hrun]
    · rw [hdev, Function.update_apply]
      rcases Nat.lt_trichotomy b block with h | h | h
      · rw [if_neg (by omega), if_neg (by omega), if_neg (by omega)]
      · rw [if_neg (by omega), if_pos h, if_pos (by omega)]
      · by_cases hlt : b < block + 1 + n
        · rw [if_pos (by omega), if_pos (by omega)]
        · rw [if_neg (by omega), if_neg (by omega), if_neg (by omega)]

/-! ## 5. Allocating through the cache

Each of the functions is stated for a `View`: it succeeds when its blocks have an offset, and the
view afterwards is the one before with a block updated. -/

section Alloc

variable {st : Mkfs} {cur fin : Nat → Mem} {dirty cached : Set Nat}

/-- What `bitmap_alloc_region` answers for a map block. -/
abbrev alloc_region (block : Mem) (start nr : Nat) : Nat × (Nat → BitVec 64) :=
  bitmap_alloc_region (as_map block) BITS_PER_BLOCK start nr

/-- **`allocate_blk`** takes its region from the first map block that gives one away from position
0, and marks that block; or every map block refuses.  The blocks looked at are cached afterwards. -/
theorem allocate_blk_loop_spec (blocks : Nat) : ∀ (rounds i block : Nat) {st : Mkfs}
    {cur : Nat → Mem} {cached : Set Nat}, View st cur fin dirty cached →
    (∀ b < block + rounds, offset_ok b) → (∀ m < rounds, block + m ∉ dirty) →
    (∃ m < rounds, (alloc_region (cur (block + m)) 0 blocks).1 ≠ 0 ∧
      (∀ m' < m, (alloc_region (cur (block + m')) 0 blocks).1 = 0) ∧
      ∃ st' cur' cached',
        allocate_blk_loop blocks rounds i block st =
          some (u32 ((alloc_region (cur (block + m)) 0 blocks).1 + (i + m) * 32768), st') ∧
        View st' cur'
          (Function.update fin (block + m) (of_map (alloc_region (cur (block + m)) 0 blocks).2))
          (insert (block + m) dirty) cached' ∧
        cached ⊆ cached' ∧ ∀ b, b < block ∨ block + rounds ≤ b → cur' b = cur b) ∨
    ((∀ m < rounds, (alloc_region (cur (block + m)) 0 blocks).1 = 0) ∧
      ∃ st', allocate_blk_loop blocks rounds i block st = some (0, st')) := by
  intro rounds
  induction rounds with
  | zero => exact fun i block st cur cached _ _ _ =>
      Or.inr ⟨fun m hm => absurd hm (Nat.not_lt_zero m), st, rfl⟩
  | succ rounds ih =>
    intro i block st cur cached hv hoff hclean
    obtain ⟨st1, hread, hv1⟩ := hv.read (hoff block (by omega))
    have hget : st1.get block = cur block := hv1.get block
    have hmem : block ∈ insert block cached := Set.mem_insert _ _
    have hclean0 : block ∉ dirty := hclean 0 (Nat.succ_pos rounds)
    have hv2 := hv1.edit_clean hmem hclean0 fun _ => of_map (alloc_region (cur block) 0 blocks).2
    simp only [allocate_blk_loop, hread, Option.bind_eq_bind, Option.bind_some, hget]
    by_cases hz : (alloc_region (cur block) 0 blocks).1 = 0
    · simp only [hz, if_true]
      have hcur : ∀ m, Function.update cur block (of_map (alloc_region (cur block) 0 blocks).2)
          (block + 1 + m) = cur (block + (m + 1)) := by
        intro m
        rw [Function.update_of_ne (by omega), Nat.add_right_comm, Nat.add_assoc]
      rcases ih (i + 1) (block + 1) hv2 (fun b hb => hoff b (by omega))
        (fun m hm => by rw [Nat.add_assoc, Nat.add_comm 1 m]; exact hclean (m + 1) (by omega)) with
        ⟨m, hm, hne, hbefore, st', cur', cached', hrun, hv', hsub, hother⟩ | ⟨hnone, st', hrun⟩
      · refine Or.inl ⟨m + 1, by omega, ?_, ?_, st', cur', cached', ?_, ?_,
          (Set.subset_insert _ _).trans hsub, ?_⟩
        · rw [← hcur m]
          exact hne
        · intro m' hm'
          rcases m' with _ | m'
          · exact hz
          · rw [← hcur m']
            exact hbefore m' (by omega)
        · rw [hcur, show i + 1 + m = i + (m + 1) by omega] at hrun
          exact hrun
        · rw [hcur, show block + 1 + m = block + (m + 1) by omega] at hv'
          exact hv'
        · intro b hb
          rw [hother b (by omega), Function.update_of_ne (by omega)]
      · refine Or.inr ⟨fun m hm => ?_, st', hrun⟩
        rcases m with _ | m
        · exact hz
        · rw [← hcur m]
          exact hnone m (by omega)
    · simp only [hz, if_false]
      obtain ⟨st', hwrite, hv'⟩ := hv2.write hmem
      rw [Function.update_self] at hv'
      rw [hwrite]
      refine Or.inl ⟨0, Nat.succ_pos rounds, hz, fun m' hm' => absurd hm' (Nat.not_lt_zero m'),
        st', _, _, rfl, hv', Set.subset_insert _ _, fun b hb => ?_⟩
      rw [Function.update_of_ne (by omega)]

/-- **`allocate_inode`** takes the number 1 when it is free. -/
theorem allocate_inode_spec (gas : FilesysParam) (hv : View st cur fin dirty cached)
    (hoff : offset_ok gas.IAM_BLOCK_START) (hclean : gas.IAM_BLOCK_START ∉ dirty)
    (hfree : map_bit (cur gas.IAM_BLOCK_START) 1 = false) :
    let map := of_map (bitmap_set (as_map (cur gas.IAM_BLOCK_START)) 1 1)
    ∃ st', allocate_inode gas st = some (1, st') ∧
      View st' (Function.update cur gas.IAM_BLOCK_START map)
        (Function.update fin gas.IAM_BLOCK_START map) (insert gas.IAM_BLOCK_START dirty)
        (insert gas.IAM_BLOCK_START cached) := by
  intro map
  obtain ⟨st1, hread, hv1⟩ := hv.read hoff
  have halloc : alloc_region (cur gas.IAM_BLOCK_START) GAS_ROOT_INO 1 =
      (1, bitmap_set (as_map (cur gas.IAM_BLOCK_START)) 1 1) := by
    have hrun : ClearRun (as_map (cur gas.IAM_BLOCK_START)) 1 1 := by
      intro j h1 h2
      obtain rfl : j = 1 := by omega
      rw [bits_as_map, hfree]
    rcases bitmap_alloc_region_cases (as_map (cur gas.IAM_BLOCK_START)) BITS_PER_BLOCK 1 1
      (by decide) (by decide) with
      ⟨p, he, hge, -, -, hfirst⟩ | ⟨-, hnone⟩
    · obtain rfl : p = 1 := by
        by_contra hne
        exact hfirst 1 (Nat.le_refl 1) (by omega) hrun
      exact he
    · exact absurd hrun (hnone 1 (Nat.le_refl 1) (by decide))
  have hmem : gas.IAM_BLOCK_START ∈ insert gas.IAM_BLOCK_START cached := Set.mem_insert _ _
  obtain ⟨st', hwrite, hv'⟩ := hv1.edit_write hmem hclean fun _ => map
  refine ⟨st', ?_, hv'⟩
  simp only [allocate_inode, hread, Option.bind_eq_bind, Option.bind_some, hv1.get, halloc]
  rw [if_neg (by norm_num), hwrite]
  rfl

/-- `get_inode` of a number in the first block of the list. -/
theorem get_inode_spec (gas : FilesysParam) (hv : View st cur fin dirty cached) (ino_id : Nat)
    (hoff : offset_ok gas.INODE_LIST_START) (hino : ino_id < 64) :
    ∃ st', get_inode gas st ino_id = some st' ∧
      View st' cur fin dirty (insert gas.INODE_LIST_START cached) := by
  obtain ⟨st', hread, hv'⟩ := hv.read hoff
  refine ⟨st', ?_, hv'⟩
  simp only [get_inode, hread, Option.bind_eq_bind, Option.bind_some]
  rw [if_neg (by simp only [INODES_PER_BLOCK, GAS_BLOCK_SIZE, sizeof_gas_inode]; omega)]
  rfl

/-! ## 6. Records in a block of the inode list

The words of a record do not overlap those of the next, so storing a record and reading another
commute.  A record fits when each of its words is a 32-bit number; what `mkfs.gas` stores does. -/

/-- Every word of the record fits its field. -/
def GasInode.Fits (ino : GasInode) : Prop := ∀ k, ino.words k < 4294967296

/-- The first word always does. -/
theorem GasInode.fits_of {ino : GasInode} (hhead : ∀ k : Fin 16, 0 < k.val → k.val < 7 →
    ino.words k < 4294967296) (hblk : ∀ i, ino.i_blkaddr i < 4294967296) : ino.Fits := by
  intro k
  match k with
  | 0 =>
    have hm := ino.i_mode.isLt
    have hn := ino.i_nlink.isLt
    simp only [words]
    omega
  | 1 => exact hhead 1 (by decide) (by decide)
  | 2 => exact hhead 2 (by decide) (by decide)
  | 3 => exact hhead 3 (by decide) (by decide)
  | 4 => exact hhead 4 (by decide) (by decide)
  | 5 => exact hhead 5 (by decide) (by decide)
  | 6 => exact hhead 6 (by decide) (by decide)
  | ⟨i + 7, h⟩ => exact hblk ⟨i, by omega⟩

/-- A stored record, word by word. -/
theorem le32_put_record (block : Mem) (ino_id : Nat) (ino : GasInode) (k : Fin 16) :
    le32 (put_record block ino_id ino) (sizeof_gas_inode * ino_id + 4 * k) =
      ino.words k % 4294967296 := by
  have hk := k.isLt
  have hbyte : ∀ j < 4, (put_record block ino_id ino (sizeof_gas_inode * ino_id + 4 * k + j)).toNat =
      ino.words k / 256 ^ j % 256 := by
    intro j hj
    have hin : sizeof_gas_inode * ino_id ≤ sizeof_gas_inode * ino_id + 4 * k + j ∧
        sizeof_gas_inode * ino_id + 4 * k + j < sizeof_gas_inode * ino_id + sizeof_gas_inode := by
      simp only [sizeof_gas_inode]
      omega
    have hdiv : (sizeof_gas_inode * ino_id + 4 * k + j - sizeof_gas_inode * ino_id) / 4 = k := by omega
    have hmod : (sizeof_gas_inode * ino_id + 4 * k + j - sizeof_gas_inode * ino_id) % 4 = j := by omega
    simp only [put_record, dif_pos hin, hdiv, hmod, Fin.eta, UInt8.toNat_ofNat']
  have h0 := hbyte 0 (by decide)
  have h1 := hbyte 1 (by decide)
  have h2 := hbyte 2 (by decide)
  have h3 := hbyte 3 (by decide)
  rw [le32, h1, h2, h3]
  rw [Nat.add_zero] at h0
  rw [h0]
  norm_num
  omega

/-- **A record that fits is read back.** The mode and the link count share the first word, sixteen
bits each. -/
theorem get_put_record (block : Mem) (ino_id : Nat) {ino : GasInode} (h : ino.Fits) :
    get_record (put_record block ino_id ino) ino_id = ino := by
  rw [get_record]
  refine Eq.trans (congrArg GasInode.of_words (funext fun k => ?_)) ino.of_words_words
  rw [le32_put_record, Nat.mod_eq_of_lt (h k)]

/-- The other records of the block stay. -/
theorem get_put_record_of_ne (block : Mem) {ino_id ino_id' : Nat} (ino : GasInode)
    (hne : ino_id' ≠ ino_id) :
    get_record (put_record block ino_id ino) ino_id' = get_record block ino_id' := by
  refine congrArg GasInode.of_words (funext fun k => le32_congr fun j hj => dif_neg ?_)
  have hk := k.isLt
  simp only [sizeof_gas_inode]
  omega

/-- A record edited in place is read back with the edit. -/
theorem get_edit_record (block : Mem) (ino_id : Nat) (f : GasInode → GasInode)
    (h : (f (get_record block ino_id)).Fits) :
    get_record (edit_record ino_id f block) ino_id = f (get_record block ino_id) :=
  get_put_record block ino_id h

/-- An edit leaves the other records of the block. -/
theorem get_edit_record_of_ne (block : Mem) {ino_id ino_id' : Nat} (f : GasInode → GasInode)
    (hne : ino_id' ≠ ino_id) :
    get_record (edit_record ino_id f block) ino_id' = get_record block ino_id' :=
  get_put_record_of_ne block _ hne

/-- The record of zeros. -/
def zero_record : GasInode := ⟨0, 0, 0, 0, 0, 0, 0, 0, fun _ => 0⟩

/-- A block of zeros holds records of zeros. -/
theorem get_record_zero (ino_id : Nat) : get_record (fun _ => 0) ino_id = zero_record := by
  simp [get_record, GasInode.of_words, le32, zero_record]

end Alloc

end GasFs
