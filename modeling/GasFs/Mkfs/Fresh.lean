/-
# A fresh file system, as the kernel sees it

`image_fs` reads an image the way the kernel does after mounting it: the superblock from block 0,
the two maps, and an inode for each number whose bit is set.  For an image of `mkfs.gas` the
superblock is the one computed from the size of the device (`Image.image_fs_eq`), the only numbers
in use are 0 and 1, and the only pointer in a record is the root directory's to its first block
(`Image.slot_iff`).

`new_inode` reserves five blocks for the root directory and records one.  So the block map and the
pointers disagree on the four others: `Image.leak` for one image, `mkfs_leaks` for every run of
`mkfs.gas`.

Nothing uses the four others: `gas_reserve_zero` never hands out a block that is marked, and
`gas_free_blocks` only frees what a pointer held.  They stay marked for the life of the file system.
-/
import GasFs.Accounts
import GasFs.Mount
import GasFs.Mkfs.Rootdir

namespace GasFs

open Bytes PtrTree RecordTable

/-! ## 1. Reading an image

`image_fs` builds the file system from the bytes alone.  It is what `gas_fill_super` reads, and in
addition every inode whose number is in use, where the kernel would read an inode when it is first
looked up. -/

/-- The file system on an image: the mounted volume, and the inodes in use as the table has them.
It is `none` where one of the two maps has no block, and such a superblock is refused. -/
def image_fs (img : Dev) (env : Env) : Option (Fs Nat) :=
  let sbi := gas_super_block_fill (super_block_of (img 0))
  if h : 0 < sbi.s_bam_blocks ∧ 0 < sbi.s_iam_blocks then
    let vol := mounted_vol sbi h.1 h.2 12 img env
    some
      { vol
        inodes := fun ino =>
          if ino < sbi.s_ninodes ∧ vol.inodeInUse ino = true then
            some (gas_inode_fill (iget_locked_new ino) (disk_inode vol ino))
          else none }
  else none

/-- **Exact accounting of the image**: in the data zone `mkfs.gas` laid out, the blocks marked in
use are those that an inode in use points to.  It compares marks with pointers and asks nothing of
what is in the blocks. -/
def FreshAccounting (size : Nat) (img : Dev) (env : Env) : Prop :=
  ∀ d, image_fs img env = some d → ∀ b, (filesys_param size).data_st ≤ b →
    b < (filesys_param size).blk_cnt →
    (d.vol.inUse b = true ↔ ∃ ino q, shape.IsPath q ∧ d.slot ino q = b)

/-! ## 2. The superblock

`mkfs.gas` writes the seven fields one after the other into a buffer, and the kernel reads them back
from the same places.  The fields do not overlap, and each is small enough for its four bytes. -/

theorem le32_putLe32_of_ne {mem : Mem} {off off' v : Nat} (h : off' + 4 ≤ off ∨ off + 4 ≤ off') :
    le32 (putLe32 mem off v) off' = le32 mem off' :=
  le32_congr fun k hk => putLe32_outside (by omega)

/-- The kernel reads the superblock that was written.  The bound on each field is what its four
bytes hold. -/
theorem super_block_of_buffer {sb : SuperBlock} (h : ∀ x ∈ [sb.s_magic, sb.s_blocksize,
    sb.s_bam_blocks, sb.s_iam_blocks, sb.s_inode_blocks, sb.s_nblocks, sb.s_ninodes],
    x < 4294967296) : super_block_of (super_block_buffer sb) = sb := by
  have h' : ∀ x ∈ [sb.s_magic, sb.s_blocksize, sb.s_bam_blocks, sb.s_iam_blocks, sb.s_inode_blocks,
      sb.s_nblocks, sb.s_ninodes], x % 4294967296 = x := fun x hx => Nat.mod_eq_of_lt (h x hx)
  simp only [List.forall_mem_cons] at h'
  obtain ⟨h0, h1, h2, h3, h4, h5, h6, -⟩ := h'
  simp (disch := omega) only [super_block_of, super_block_buffer, le32_putLe32_of_ne, le32_putLe32,
    h0, h1, h2, h3, h4, h5, h6]

/-- The superblock of `mkfs.gas` needs no bound: its fields are `uint32_t`s when they are
computed. -/
theorem super_block_of_mkfs (gas : FilesysParam) :
    super_block_of (super_block_buffer (init_super_block gas)) = init_super_block gas := by
  refine super_block_of_buffer fun x hx => ?_
  simp only [init_super_block, List.mem_cons, List.not_mem_nil, or_false] at hx
  rcases hx with rfl | rfl | rfl | rfl | rfl | rfl | rfl
  · decide
  · decide
  all_goals exact u32_lt _

/-! ## 3. The file system on a finished image

The inodes of the image are the two of the inode map: number 0, which is marked and whose record is
zero, and the root.  `fresh_slot_iff` looks through all their slots, and `inUse_iff` through the
bits of the block map; they differ in four blocks. -/

section Image

variable {who : Caller} {size n : Nat} {dev img : Dev}

/-- A device on which `mkfs.gas` found an offset for the data zone is small enough for every count
to fit its field. -/
theorem fits_of_offset_ok (h : offset_ok (filesys_param size).data_st) :
    (filesys_param size).Fits := by
  refine filesys_param_fits ?_
  have hblk : (filesys_param size).blk_cnt < ((filesys_param size).ino_blk + 1) * 256 := by
    simp only [filesys_param, GAS_BLOCK_SIZE, INODES_PER_BLOCK, sizeof_gas_inode]
    omega
  have hst : (filesys_param size).data_st = 1 + (filesys_param size).bam_blk +
    (filesys_param size).iam_blk + (filesys_param size).ino_blk := rfl
  simp only [offset_ok, GAS_BLOCK_SIZE] at h
  omega

/-- The inodes in use on an image: number 0 with an empty record, and the root directory with the
record that `make_rootdir` wrote. -/
def fresh_inodes (who : Caller) (n ino : Nat) : Option Inode :=
  if ino = 0 then some (gas_inode_fill (iget_locked_new 0) zero_record)
  else if ino = 1 then some (gas_inode_fill (iget_locked_new 1) (root_record who n 520))
  else none

/-- The record of a number in the volume mounted. -/
theorem Image.disk_inode (h : Image who (filesys_param size) dev img n)
    (hf : (filesys_param size).Fits) (hb : 0 < (mkfs_sbi size).s_bam_blocks)
    (hi : 0 < (mkfs_sbi size).s_iam_blocks) (env : Env) {ino : Nat}
    (hlt : ino < (filesys_param size).ino_cnt) :
    GasFs.disk_inode (mounted_vol (mkfs_sbi size) hb hi 12 img env) ino =
      if ino = 1 then root_record who n 520 else zero_record := by
  have hlist := (mkfs_sbi_of_fits hf).2.2.2.2.1
  rw [← h.records ino hlt, GasFs.disk_inode, get_record]
  refine congrArg GasInode.of_words (funext fun k => ?_)
  simp only [peek, mounted_vol, gas_inode_block, gas_inode_offset, hlist,
    (mkfs_sbi_per_block size).2.2, sizeof_gas_inode]
  congr 1
  omega

/-- **The kernel's view of an image of `mkfs.gas`.** Both maps have at least one block there, so the
file system is there. -/
theorem Image.image_fs_eq (h : Image who (filesys_param size) dev img n)
    (hsize : 256 ≤ (filesys_param size).blk_cnt) (hf : (filesys_param size).Fits) (env : Env) :
    ∃ hb hi, image_fs img env =
      some ⟨mounted_vol (mkfs_sbi size) hb hi 12 img env, fresh_inodes who n⟩ := by
  obtain ⟨hbam, hiam, hnb, hni, hlist, hdata⟩ := mkfs_sbi_of_fits hf
  obtain ⟨hino, hipos, hbpos⟩ := ino_blk_pos hsize
  obtain ⟨hst, hcnt, -, -, hile, -⟩ := filesys_param_counts size
  have hsbi : gas_super_block_fill (super_block_of (img 0)) = mkfs_sbi size := by
    rw [h.super, super_block_of_mkfs]
    rfl
  have hb : 0 < (mkfs_sbi size).s_bam_blocks := by omega
  have hi : 0 < (mkfs_sbi size).s_iam_blocks := by omega
  refine ⟨hb, hi, ?_⟩
  simp only [image_fs, hsbi]
  rw [dif_pos ⟨hb, hi⟩]
  congr 2
  funext ino
  have huse : ino < (filesys_param size).ino_cnt →
      (mounted_vol (mkfs_sbi size) hb hi 12 img env).inodeInUse ino = decide (ino ≤ 1) := by
    intro hlt
    have hbit := h.iam (ino / 32768) (by omega) (ino % 32768) (by omega)
    simp only [Vol.inodeInUse, mounted_vol, hbam]
    rw [hbit]
    exact decide_eq_decide.mpr (by omega)
  have hin : (ino < (mkfs_sbi size).s_ninodes ∧
      (mounted_vol (mkfs_sbi size) hb hi 12 img env).inodeInUse ino = true) ↔ ino ≤ 1 := by
    rw [hni]
    constructor
    · rintro ⟨hlt, hu⟩
      rw [huse hlt] at hu
      exact of_decide_eq_true hu
    · intro hle
      refine ⟨by omega, ?_⟩
      rw [huse (by omega), decide_eq_true hle]
  rw [fresh_inodes]
  rcases Nat.lt_or_ge 1 ino with hgt | hle
  · rw [if_neg (fun hc => absurd (hin.mp hc) (by omega)), if_neg (by omega), if_neg (by omega)]
  · rw [if_pos (hin.mpr hle), h.disk_inode hf hb hi env (by omega)]
    rcases Nat.lt_or_ge 0 ino with hpos | hz
    · obtain rfl : ino = 1 := by omega
      rfl
    · obtain rfl : ino = 0 := by omega
      rfl

/-- **The one pointer**: the root directory's to its first block. -/
theorem fresh_slot_iff (v : Vol) (hn : n ≠ 0) {b : Nat} (hb : b ≠ 0) :
    (∃ ino q, shape.IsPath q ∧ Fs.slot ⟨v, fresh_inodes who n⟩ ino q = b) ↔ b = n := by
  constructor
  · rintro ⟨ino, q, hq, rfl⟩
    obtain ⟨i, hi, hblocks⟩ := Fs.slot_ne_zero hb
    rw [Fs.slot_of_blocks hi hblocks] at hb ⊢
    simp only [fresh_inodes] at hi
    split at hi
    · obtain rfl := Option.some.inj hi
      exact absurd hblocks (by decide)
    · split at hi
      · obtain rfl := Option.some.inj hi
        cases q with
        | nil => exact hq.elim
        | cons j r =>
          obtain ⟨hj, hr, -⟩ := isPath_cons.mp hq
          have hptr : (gas_inode_fill (iget_locked_new 1) (root_record who n 520)).blkaddr j =
              if j = 0 then n else 0 := by
            simp only [gas_inode_fill, dif_pos hj, root_record, Function.update_apply]
            exact if_congr Fin.ext_iff rfl rfl
          rw [Ctx.val, PtrTree.val, hptr] at hb ⊢
          by_cases hj0 : j = 0
          · subst hj0
            obtain rfl : r = [] := List.eq_nil_of_length_eq_zero (by omega)
            rfl
          · rw [if_neg hj0, walk_zero] at hb
            exact absurd rfl hb
      · exact absurd hi (by simp)
  · rintro rfl
    refine ⟨1, [0], isPath_cons.mpr
      ⟨by decide, Nat.zero_le _, fun j hj => absurd hj List.not_mem_nil⟩, ?_⟩
    have hdir : has_blocks rootdir_mode = true := by decide
    rw [Fs.slot_of_blocks (i := gas_inode_fill (iget_locked_new 1) (root_record who b 520)) rfl hdir]
    rfl

/-- **The block map of the image**: the five blocks reserved are marked.  The bits are read back
from the map blocks of the image, one bit for each block. -/
theorem Image.inUse_iff (h : Image who (filesys_param size) dev img n) {sbi : SbInfo}
    (hb : 0 < sbi.s_bam_blocks) (hi : 0 < sbi.s_iam_blocks)
    (hbits : sbi.s_bits_per_block = 32768) (env : Env) {b : Nat}
    (hlo : (filesys_param size).data_st ≤ b) (hhi : b < (filesys_param size).blk_cnt) :
    (mounted_vol sbi hb hi 12 img env).inUse b = true ↔ n ≤ b ∧ b < n + 5 := by
  have hcov := (filesys_param_counts size).2.2.1
  have hbit := h.bam (b / 32768) (by omega) (b % 32768) (by omega)
  simp only [Vol.inUse, mounted_vol, hbits]
  rw [hbit, decide_eq_true_iff]
  omega

/-- **Four blocks are marked and held by no pointer.** Block `n + 1` is one of them: it lies within
the device, is marked, and is in no slot. -/
theorem Image.leak (h : Image who (filesys_param size) dev img n) (hok : offset_ok n)
    (hsize : 256 ≤ (filesys_param size).blk_cnt) (env : Env) : ¬FreshAccounting size img env := by
  intro hacc
  have hzone := h.zone
  have hroom := h.room
  have hst : 0 < (filesys_param size).data_st := by
    have := (filesys_param_counts size).1
    have hL : (filesys_param size).INODE_LIST_START =
      1 + (filesys_param size).bam_blk + (filesys_param size).iam_blk := rfl
    omega
  obtain ⟨hb, hi, hfs⟩ := h.image_fs_eq hsize (fits_of_offset_ok (offset_ok_of_le hok hzone)) env
  have huse := (h.inUse_iff hb hi (mkfs_sbi_per_block size).2.1 env (b := n + 1) (by omega) (by omega)).mpr (by omega)
  have hheld := (hacc _ hfs (n + 1) (by omega) (by omega)).mp huse
  exact absurd ((fresh_slot_iff _ (by omega) (by omega)).mp hheld) (by omega)

/-- **Every file system `mkfs.gas` makes leaks blocks.** Whoever runs it, on whatever was on the
device before, and however the kernel reads it. -/
theorem mkfs_leaks (who : Caller) (size : Nat) (dev img : Dev) (env : Env)
    (hsize : 256 ≤ (filesys_param size).blk_cnt) (h : mkfs_main who size dev = some img) :
    ¬FreshAccounting size img env := by
  obtain ⟨n, hok, himg⟩ := mkfs_image hsize h
  exact himg.leak hok hsize env

/-! ## 4. A device of 256 blocks

The smallest device that is mounted, a megabyte of zeros.  Its data zone begins with block 4, so the
root directory has block 4 and the blocks 5 to 8 are the ones that leak. -/

/-- Root, at the epoch. -/
def root_caller : Caller := ⟨0, 0, 0⟩

/-- `mkfs.gas` succeeds on a megabyte of zeros. -/
theorem mkfs_megabyte : ∃ img, mkfs_main root_caller 1048576 (fun _ _ => 0) = some img ∧
    Image root_caller (filesys_param 1048576) (fun _ _ => 0) img 4 :=
  mkfs_isSome root_caller (fun _ _ => 0) (by decide) (by decide) (by decide) (by decide) (by decide)

/-- Block 5 of the image is marked and held by nothing. -/
theorem megabyte_leaks : ∃ img, mkfs_main root_caller 1048576 (fun _ _ => 0) = some img ∧
    ¬FreshAccounting 1048576 img blank_vol.env := by
  obtain ⟨img, hrun, himg⟩ := mkfs_megabyte
  exact ⟨img, hrun, himg.leak (by decide) (by decide) _⟩

theorem mkfs_leaks_megabyte : 256 ≤ (filesys_param 1048576).blk_cnt ∧
    ∃ img, mkfs_main root_caller 1048576 (fun _ _ => 0) = some img ∧
      ¬FreshAccounting 1048576 img blank_vol.env := by
  obtain ⟨img, hrun, -⟩ := mkfs_megabyte
  exact ⟨by decide, img, hrun, mkfs_leaks root_caller 1048576 _ img _ (by decide) hrun⟩

end Image

end GasFs
