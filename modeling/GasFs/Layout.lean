/-
# The on-disk layout and the kernel objects of GAS

`gas.h` and the parts of Linux 3.13 that its functions read: the superblock and what
`gas_super_block_fill` derives from it, the file-type bits of a mode, the in-core inode, and a
mounted volume.

Three conventions hold in the whole model.

* Machine integers are `Nat` with the wrap of their C type written out (`u32`, `int32`), except
  `umode_t` and `i_nlink`, which are bit vectors because the code does bit tests and unchecked
  increments on them.
* A block is 1024 little-endian words seen by number (`Vol.words`).  The two bitmaps are held
  as bits, since their buffers stay pinned from mount to unmount, and the pages of a directory
  as bytes (`Inode.pages`).
* What the kernel around the file system answers (whether a buffer read, a page read or a
  memory allocation succeeds, the time, the caller's credentials) is an arbitrary environment
  `Env`, asked in order: `tick` counts the questions, so an answer may differ from one request
  to the next.
-/
import GasFs.Lib.Bytes

namespace GasFs

/-! ## 1. Constants and machine integers

The constants are those of `gas.h`, under their names there.  The conversions are written out where
C makes them silently: a `__u32` assigned to an `int`, and an `int` widened to a 64-bit `sector_t`.
It is the second of these that fails for block numbers from `2 ^ 31` on. -/

/-- `GAS_MAX_NAME_LEN`. -/
abbrev GAS_MAX_NAME_LEN : Nat := 256
/-- `GAS_BLOCK_SIZE`, what `mkfs.gas` writes into every superblock. -/
abbrev GAS_BLOCK_SIZE : Nat := 4096
/-- `BITS_PER_BLOCK`. -/
abbrev BITS_PER_BLOCK : Nat := 8 * GAS_BLOCK_SIZE
/-- `MAGIC_NUMBER`. -/
abbrev MAGIC_NUMBER : Nat := 0x6A5000F5
/-- `GAS_ROOT_INO`. -/
abbrev GAS_ROOT_INO : Nat := 1
/-- `GAS_LINK_MAX`, stored in `s_max_links` and enforced by the VFS. -/
abbrev GAS_LINK_MAX : Nat := 32000
/-- `PAGE_CACHE_SIZE`; `PAGE_CACHE_SHIFT` is its logarithm, 12. -/
abbrev PAGE_CACHE_SIZE : Nat := 4096
/-- `sizeof(struct gas_inode)`. -/
abbrev sizeof_gas_inode : Nat := 64
/-- `sizeof(struct gas_dir_entry)`: a 256-byte name and a 32-bit inode number. -/
abbrev sizeof_gas_dir_entry : Nat := 260

/-- The value kept by a `__u32`. -/
def u32 (n : Nat) : Nat := n % 4294967296

/-- The value of an `int` assigned from an unsigned number: the low 32 bits, two's complement.
Numbers from `2 ^ 31` on become negative. -/
def int32 (n : Nat) : Int :=
  if n % 4294967296 < 2147483648 then (n % 4294967296 : Nat)
  else (n % 4294967296 : Nat) - 4294967296

/-- The value of a `__u32` assigned from an `int`. -/
def u32_of_int (x : Int) : Nat := (x % 4294967296).toNat

/-- The value of a 64-bit `sector_t` assigned from an `int`: sign extension.  A negative `int`
becomes a sector far behind the end of every device. -/
def sector_of_int (x : Int) : Nat := (x % 18446744073709551616).toNat

theorem u32_of_lt {n : Nat} (h : n < 4294967296) : u32 n = n := Nat.mod_eq_of_lt h

/-- A 32-bit number survives the trip through an `int` and back. -/
theorem u32_of_int_int32 {n : Nat} (h : n < 4294967296) : u32_of_int (int32 n) = n := by
  simp only [u32_of_int, int32]
  split <;> omega

/-- Below `2 ^ 31` no sign bit is involved: the sector is the number itself. -/
theorem sector_of_int_int32 {n : Nat} (h : n < 2147483648) : sector_of_int (int32 n) = n := by
  simp only [sector_of_int, int32]
  split <;> omega

theorem int32_eq_zero_iff {n : Nat} (h : n < 4294967296) : int32 n = 0 ↔ n = 0 := by
  simp only [int32]
  split <;> omega

/-- The errors the file system returns, as `-E…`; success is `none`. -/
inductive Errno where
  | ENOENT | EIO | EAGAIN | ENOMEM | EEXIST | EINVAL | ENOSPC | ENAMETOOLONG | ENOTEMPTY
  deriving DecidableEq, Repr

/-! ## 2. File types

The bits of `i_mode`.  The type of a file decides which operation table it gets and whether its
`blkaddr` array holds pointers. -/

abbrev S_IFMT : BitVec 16 := 0xF000#16
abbrev S_IFLNK : BitVec 16 := 0xA000#16
abbrev S_IFREG : BitVec 16 := 0x8000#16
abbrev S_IFBLK : BitVec 16 := 0x6000#16
abbrev S_IFDIR : BitVec 16 := 0x4000#16
abbrev S_IFCHR : BitVec 16 := 0x2000#16
abbrev S_ISGID : BitVec 16 := 0x0400#16

def S_ISREG (mode : BitVec 16) : Bool := mode &&& S_IFMT == S_IFREG
def S_ISDIR (mode : BitVec 16) : Bool := mode &&& S_IFMT == S_IFDIR
def S_ISLNK (mode : BitVec 16) : Bool := mode &&& S_IFMT == S_IFLNK
def S_ISCHR (mode : BitVec 16) : Bool := mode &&& S_IFMT == S_IFCHR
def S_ISBLK (mode : BitVec 16) : Bool := mode &&& S_IFMT == S_IFBLK

/-- The three file types whose `blkaddr` array holds block pointers; `gas_truncate` tests it. -/
def has_blocks (mode : BitVec 16) : Bool := S_ISREG mode || S_ISDIR mode || S_ISLNK mode

/-! ## 3. Superblock

`gas_super_block_fill` copies the fields of the device and derives the rest from them.  It checks
nothing; the checks are made by `gas_fill_super`. -/

/-- `struct gas_super_block`, after `le32_to_cpu`. -/
structure SuperBlock where
  s_magic : Nat
  s_blocksize : Nat
  s_bam_blocks : Nat
  s_iam_blocks : Nat
  s_inode_blocks : Nat
  s_nblocks : Nat
  s_ninodes : Nat
  deriving DecidableEq, Repr

/-- `struct gas_sb_info`, less the two bitmap arrays and the two hints, which are kept in
`Vol`. -/
structure SbInfo where
  s_magic : Nat
  s_blocksize : Nat
  s_bam_blocks : Nat
  s_iam_blocks : Nat
  s_inode_blocks : Nat
  s_nblocks : Nat
  s_ninodes : Nat
  s_inodes_per_block : Nat
  s_bits_per_block : Nat
  s_dir_entries_per_block : Nat
  s_inode_list_start : Nat
  s_data_block_start : Nat
  deriving DecidableEq, Repr

/-- `gas_super_block_fill`: every sum and product is one of 32-bit numbers.  The inode list begins
behind the superblock and the two maps, the data zone behind the inode list. -/
def gas_super_block_fill (dsb : SuperBlock) : SbInfo :=
  let s_inode_list_start := u32 (dsb.s_bam_blocks + dsb.s_iam_blocks + 1)
  { s_magic := dsb.s_magic
    s_blocksize := dsb.s_blocksize
    s_bam_blocks := dsb.s_bam_blocks
    s_iam_blocks := dsb.s_iam_blocks
    s_inode_blocks := dsb.s_inode_blocks
    s_nblocks := dsb.s_nblocks
    s_ninodes := dsb.s_ninodes
    s_inodes_per_block := dsb.s_blocksize / sizeof_gas_inode
    s_bits_per_block := u32 (8 * dsb.s_blocksize)
    s_dir_entries_per_block := dsb.s_blocksize / sizeof_gas_dir_entry
    s_inode_list_start := s_inode_list_start
    s_data_block_start := u32 (s_inode_list_start + dsb.s_inode_blocks) }

/-! ## 4. Inodes

The fields that some function of the module reads or writes.  Link counts are bit vectors, since
`inc_nlink` and `drop_nlink` wrap. -/

/-- The four inode operation tables an inode can be given (`def.c`, `init_special_inode`). -/
inductive InodeOps where
  | none | gas_file_inode_ops | gas_dir_inode_ops | gas_symlink_inode_ops
  deriving DecidableEq, Repr

/-- `struct gas_inode_info`: the in-core inode with its nine block pointers.  `pages` is its
page cache, `dead` the flag `S_DEAD` that the VFS sets when it has removed a directory. -/
structure Inode where
  i_ino : Nat
  i_mode : BitVec 16
  i_nlink : BitVec 32
  i_uid : Nat
  i_gid : Nat
  i_size : Nat
  i_atime : Nat
  i_mtime : Nat
  i_ctime : Nat
  i_rdev : Nat
  i_op : InodeOps
  blkaddr : Nat → Nat
  pages : Nat → Bytes.Mem
  dead : Bool

/-- `inode_inc_link_count`. -/
def inode_inc_link_count (inode : Inode) : Inode := { inode with i_nlink := inode.i_nlink + 1 }

/-- `inode_dec_link_count`. -/
def inode_dec_link_count (inode : Inode) : Inode := { inode with i_nlink := inode.i_nlink - 1 }

/-- `gas_set_inode`: the operation tables by file type; `init_special_inode` keeps the device
number of a character or block device. -/
def gas_set_inode (inode : Inode) (rdev : Nat) : Inode :=
  if S_ISREG inode.i_mode then { inode with i_op := .gas_file_inode_ops }
  else if S_ISDIR inode.i_mode then { inode with i_op := .gas_dir_inode_ops }
  else if S_ISLNK inode.i_mode then { inode with i_op := .gas_symlink_inode_ops }
  else if S_ISCHR inode.i_mode || S_ISBLK inode.i_mode then { inode with i_rdev := rdev }
  else inode

/-! ## 5. Mounted volumes

A volume is what the functions share: the superblock, the two bitmaps with their hints, the words of
the blocks, and the environment with the number of requests made so far. -/

/-- What the kernel around the file system answers to the n-th request.  Nothing is assumed about
the answers, so a theorem over all environments covers every failure in every order. -/
structure Env where
  /-- does `sb_bread` succeed -/
  bread : Nat → Bool
  /-- does `read_mapping_page` succeed -/
  pgread : Nat → Bool
  /-- what lies in memory behind the page read -/
  beyond : Nat → Bytes.Mem
  /-- does an allocation of kernel memory succeed -/
  mem : Nat → Bool
  /-- `CURRENT_TIME_SEC` -/
  now : Nat → Nat
  /-- `current_fsuid` and `current_fsgid` -/
  fsuid : Nat
  fsgid : Nat

/-- A mounted volume.  The two hints are indices into the bitmap arrays: `gas_fill_super`
refuses a superblock without map blocks and starts them at `0`, so the type can say so. -/
structure Vol where
  sbi : SbInfo
  s_blocksize_bits : Nat
  s_bam_last : Fin sbi.s_bam_blocks
  s_iam_last : Fin sbi.s_iam_blocks
  bam : Nat → Nat → Bool
  iam : Nat → Nat → Bool
  words : Nat → Nat → Nat
  env : Env
  tick : Nat

/-- `CURRENT_TIME_SEC`. -/
def Vol.now (v : Vol) : Nat := v.env.now v.tick

/-- `sb_bread`: does this buffer read succeed.  The buffer is the block's words, and the request is
counted whether it succeeds or not. -/
def sb_bread (v : Vol) : Bool × Vol := (v.env.bread v.tick, { v with tick := v.tick + 1 })

/-- A bit of a map block, as `find_first_zero_bit` numbers them on a little-endian machine. -/
def map_bit (block : Bytes.Mem) (k : Nat) : Bool := (block (k / 8)).toBitVec.getLsbD (k % 8)

/-- `INDIRCOUNT`: pointers in an indirect block, four bytes each. -/
def INDIRCOUNT (v : Vol) : Nat := 2 ^ (v.s_blocksize_bits - 2)

/-- `gas_inode_block`: the block of the inode list that holds the record.  Records are numbered from
`0`, and number `0` is never used. -/
def gas_inode_block (sbi : SbInfo) (ino : Nat) : Nat :=
  sbi.s_inode_list_start + ino / sbi.s_inodes_per_block

/-- `gas_inode_offset`: the byte offset of the record in its block. -/
def gas_inode_offset (sbi : SbInfo) (ino : Nat) : Nat :=
  sizeof_gas_inode * (ino % sbi.s_inodes_per_block)

/-- **A block map that has a bit for each block**, whatever the block size; the number of blocks is
32 bits wide.  This is all that the allocator needs, and what `mkfs.gas` writes satisfies it. -/
structure MapGeometry (v : Vol) : Prop where
  bits_per_block : v.sbi.s_bits_per_block = 2 ^ (v.s_blocksize_bits + 3)
  data_pos : 0 < v.sbi.s_data_block_start
  covers : v.sbi.s_nblocks ≤ v.sbi.s_bam_blocks * v.sbi.s_bits_per_block
  nblocks_lt : v.sbi.s_nblocks < 4294967296

theorem MapGeometry.bits_pos {v : Vol} (h : MapGeometry v) : 0 < v.sbi.s_bits_per_block := by
  rw [h.bits_per_block]
  exact Nat.two_pow_pos _

/-- **The geometry `mkfs.gas` gives every volume**: blocks of 4096 bytes, and a block map that
has a bit for each block. -/
structure Geometry (v : Vol) : Prop where
  blocksize : v.sbi.s_blocksize = 4096
  blocksize_bits : v.s_blocksize_bits = 12
  bits_per_block : v.sbi.s_bits_per_block = 32768
  inodes_per_block : v.sbi.s_inodes_per_block = 64
  data_pos : 0 < v.sbi.s_data_block_start
  covers : v.sbi.s_nblocks ≤ v.sbi.s_bam_blocks * 32768
  nblocks_lt : v.sbi.s_nblocks < 4294967296

theorem Geometry.map {v : Vol} (h : Geometry v) : MapGeometry v where
  bits_per_block := by simp [h.bits_per_block, h.blocksize_bits]
  data_pos := h.data_pos
  covers := by rw [h.bits_per_block]; exact h.covers
  nblocks_lt := h.nblocks_lt

theorem Geometry.indircount {v : Vol} (h : Geometry v) : INDIRCOUNT v = 1024 := by
  simp [INDIRCOUNT, h.blocksize_bits]

end GasFs
