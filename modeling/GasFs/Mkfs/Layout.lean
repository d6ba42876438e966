/-
# The layout `mkfs.gas` chooses: the first half of `main` in `makefs/mkfs.c`

From the size of the device `main` computes how many blocks the two bitmaps and the inode list
get, and `init_super_block` stores the counts, each cut to 32 bits, in block 0.  Mounting
recomputes from them where the inode list and the data zone start.

The counts are computed in 64 bits and used as such by `mkfs.gas`; the kernel sees the 32-bit
fields.  `Fits` says that nothing is lost between the two, and holds whenever the block numbers of
the device fit the 32-bit fields that hold them on disk (`filesys_param_fits`).

The order on the device is superblock, block map, inode map, inode list, data zone.  Neither the
start of the inode list nor that of the data zone is stored; both sides add up the counts in front.
-/
import GasFs.Layout

namespace GasFs

/-! ## 1. The parameters

The counts follow from the number of blocks: one map bit for each block, one inode for four blocks,
64 inodes in a block of the list, and one map bit for each inode number. -/

/-- `INODES_PER_BLOCK`. -/
abbrev INODES_PER_BLOCK : Nat := GAS_BLOCK_SIZE / sizeof_gas_inode

/-- `struct filesys_param`, less the file descriptor.  All of them are counts of blocks or of
objects; the size in bytes is not kept. -/
structure FilesysParam where
  iam_blk : Nat
  ino_blk : Nat
  bam_blk : Nat
  blk_cnt : Nat
  ino_cnt : Nat
  data_st : Nat
  deriving DecidableEq, Repr

/-- The "file system configuration" of `main`, from the size of the device in bytes. -/
def filesys_param (size : Nat) : FilesysParam :=
  let blk_cnt := size / GAS_BLOCK_SIZE
  let bam_blk := (blk_cnt + BITS_PER_BLOCK - 1) / BITS_PER_BLOCK
  let ino_blk := blk_cnt / 4 / INODES_PER_BLOCK
  let ino_cnt := ino_blk * INODES_PER_BLOCK
  let iam_blk := (ino_cnt + BITS_PER_BLOCK - 1) / BITS_PER_BLOCK
  { iam_blk, ino_blk, bam_blk, blk_cnt, ino_cnt, data_st := 1 + bam_blk + iam_blk + ino_blk }

/-- `BAM_BLOCK_START`. -/
abbrev BAM_BLOCK_START : Nat := 1
/-- `IAM_BLOCK_START`. -/
abbrev FilesysParam.IAM_BLOCK_START (gas : FilesysParam) : Nat := BAM_BLOCK_START + gas.bam_blk
/-- `INODE_LIST_START`. -/
abbrev FilesysParam.INODE_LIST_START (gas : FilesysParam) : Nat := gas.IAM_BLOCK_START + gas.iam_blk

/-- The superblock `init_super_block` writes. -/
def init_super_block (gas : FilesysParam) : SuperBlock where
  s_magic := MAGIC_NUMBER
  s_blocksize := GAS_BLOCK_SIZE
  s_bam_blocks := u32 gas.bam_blk
  s_iam_blocks := u32 gas.iam_blk
  s_inode_blocks := u32 gas.ino_blk
  s_nblocks := u32 gas.blk_cnt
  s_ninodes := u32 gas.ino_cnt

/-- What the kernel derives from that superblock. -/
def mkfs_sbi (size : Nat) : SbInfo := gas_super_block_fill (init_super_block (filesys_param size))

/-! ## 2. The kernel and `mkfs.gas` agree

The kernel adds in 32 bits what `mkfs.gas` adds in 64.  On a device whose blocks have 32-bit numbers
no sum leaves that range, and the places come out the same. -/

/-- The geometry does not depend on the device. -/
theorem mkfs_sbi_per_block (size : Nat) :
    (mkfs_sbi size).s_blocksize = 4096 ∧ (mkfs_sbi size).s_bits_per_block = 32768 ∧
      (mkfs_sbi size).s_inodes_per_block = 64 := by
  simp [mkfs_sbi, gas_super_block_fill, init_super_block, u32, GAS_BLOCK_SIZE, sizeof_gas_inode]

/-- No count is cut, neither in the superblock nor in the two sums. -/
structure FilesysParam.Fits (gas : FilesysParam) : Prop where
  blk_cnt : gas.blk_cnt < 4294967296
  data_st : gas.data_st < 4294967296
  ino_cnt : gas.ino_cnt < 4294967296

/-- How the counts are related, whatever the size. -/
theorem filesys_param_counts (size : Nat) :
    let gas := filesys_param size
    gas.data_st = gas.INODE_LIST_START + gas.ino_blk ∧ gas.ino_cnt = gas.ino_blk * 64 ∧
      gas.blk_cnt ≤ gas.bam_blk * 32768 ∧ gas.bam_blk * 32768 < gas.blk_cnt + 32768 ∧
      gas.ino_cnt ≤ gas.iam_blk * 32768 ∧ gas.iam_blk * 32768 < gas.ino_cnt + 32768 ∧
      gas.ino_cnt * 4 ≤ gas.blk_cnt := by
  simp only [filesys_param, FilesysParam.INODE_LIST_START, FilesysParam.IAM_BLOCK_START,
    BAM_BLOCK_START, BITS_PER_BLOCK, GAS_BLOCK_SIZE, INODES_PER_BLOCK, sizeof_gas_inode]
  generalize size / 4096 = n
  generalize hi : n / 4 / (4096 / 64) = i
  refine ⟨trivial, trivial, ?_, ?_, ?_, ?_, ?_⟩ <;> omega

/-- **A device whose block numbers have 32 bits is laid out without loss.** -/
theorem filesys_param_fits {size : Nat} (h : (filesys_param size).blk_cnt < 4294967296) :
    (filesys_param size).Fits := by
  obtain ⟨hst, hcnt, -, hbam, -, hiam, hino⟩ := filesys_param_counts size
  refine ⟨h, ?_, by omega⟩
  rw [hst]
  simp only [FilesysParam.INODE_LIST_START, FilesysParam.IAM_BLOCK_START, BAM_BLOCK_START]
  omega

/-- **The kernel finds the inode list and the data zone where `mkfs.gas` put them.** -/
theorem mkfs_sbi_of_fits {size : Nat} (h : (filesys_param size).Fits) :
    let gas := filesys_param size
    (mkfs_sbi size).s_bam_blocks = gas.bam_blk ∧ (mkfs_sbi size).s_iam_blocks = gas.iam_blk ∧
      (mkfs_sbi size).s_nblocks = gas.blk_cnt ∧ (mkfs_sbi size).s_ninodes = gas.ino_cnt ∧
      (mkfs_sbi size).s_inode_list_start = gas.INODE_LIST_START ∧
      (mkfs_sbi size).s_data_block_start = gas.data_st := by
  obtain ⟨hblk, hst, hcnt⟩ := h
  have hsum : (filesys_param size).data_st = (filesys_param size).INODE_LIST_START +
    (filesys_param size).ino_blk := (filesys_param_counts size).1
  simp only [mkfs_sbi, gas_super_block_fill, init_super_block]
  generalize filesys_param size = gas at *
  simp only [FilesysParam.INODE_LIST_START, FilesysParam.IAM_BLOCK_START, BAM_BLOCK_START] at *
  rw [u32_of_lt (n := gas.bam_blk) (by omega), u32_of_lt (n := gas.iam_blk) (by omega),
    u32_of_lt (n := gas.ino_blk) (by omega), u32_of_lt hblk, u32_of_lt hcnt,
    u32_of_lt (n := gas.bam_blk + gas.iam_blk + 1) (by omega), u32_of_lt (by omega)]
  exact ⟨rfl, rfl, rfl, rfl, by omega, by omega⟩

end GasFs
