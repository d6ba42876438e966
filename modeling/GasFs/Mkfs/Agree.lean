/-
# What `mkfs.gas` writes is what the kernel mounts

`mkfs.gas` derives the sizes of the regions from the size of the device, the kernel derives their
places from the superblock.  `MkfsAgrees` says that the two agree: the kernel accepts the superblock,
computes the places `mkfs.gas` used, and finds the root directory.

The agreement has two ends.

* A device of fewer than 256 blocks gets no inode block, since `blk_cnt / 4 / INODES_PER_BLOCK` is
  `0`.  `mkfs.gas` puts its root directory there without a word, over the blocks it also takes for
  the inode map and the inode list, and `gas_fill_super` refuses the superblock.
* On a device of more than 132919295 blocks the data zone begins behind block 524288, and the byte
  offset of a block that `mkfs.gas` accesses is no `int` any more.  The product overflows, `lseek`
  refuses what comes out of it, and the program goes on at the file position it has: the entries of
  the root directory then go over a block of the block map.  `mkfs_run` ends such a run at the
  product, where C gives it no further meaning.

Between the two ends every run that `mkfs.gas` completes agrees, and there alone: `mkfs_agrees_iff`.
A run in the middle may still end early, on a device whose data zone begins with the last blocks of a
map block: `allocate_blk` then finds no room for the root directory, and `make_rootdir` exits.

The agreement is about a kernel that refuses nothing (`Env.Calm`).  A kernel that cannot read block
0 mounts no image at all, and that says nothing about `mkfs.gas`.
-/
import GasFs.Dir.Map
import GasFs.FileMap
import GasFs.InodeMap
import GasFs.Mkfs.Offsets

namespace GasFs

open Bytes BitArray SlotTable

/-! ## 1. Reading a page

The inode of the root comes without its pages.  `Inode.paged` gives it those that `gas_readpage`
would read, so that a lookup in the directory is a lookup in the blocks of the image. -/

/-- The bytes of a block.  The words are four bytes each, so a block has 1024 of them. -/
def Vol.block (v : Vol) (b : Nat) : Mem := ofWords (v.words b)

/-- `gas_readpage`: what it reads in as page `n`.  A hole, and what lies behind the last block, are
zeros.  That holds without errors; a page that cannot be read is the business of `Env.pgread`. -/
def gas_readpage (v : Vol) (inode : Inode) (n : Nat) : Mem :=
  if gas_dir_pages inode ≤ n then fun _ => 0
  else
    match (gas_get_block ⟨v, inode, 0⟩ n false).mapped with
    | some b => v.block b
    | none => fun _ => 0

/-- An inode fresh from `gas_iget`, with the pages it has on the device.  The kernel reads a page
when it is first asked for; here they are all there from the start. -/
def Inode.paged (inode : Inode) (v : Vol) : Inode := { inode with pages := gas_readpage v inode }

/-! ## 2. What should agree

Each side computes the regions for itself: `mkfs.gas` adds up the sizes it chose, the kernel adds up
the sizes it finds in the superblock.  `Agrees` lists what is the same then, and that no two regions
share a block. -/

/-- The regions of a volume: superblock, block map, inode map, inode list, and the block of the root
directory.  The root directory has one block of its own; the four reserved behind it belong to no
region. -/
def regions (sbi : SbInfo) (root : Inode) : List (Finset Nat) :=
  [{0}, Finset.Ico 1 (1 + sbi.s_bam_blocks),
    Finset.Ico (1 + sbi.s_bam_blocks) (1 + sbi.s_bam_blocks + sbi.s_iam_blocks),
    Finset.Ico sbi.s_inode_list_start (sbi.s_inode_list_start + sbi.s_inode_blocks),
    {root.blkaddr 0}]

/-- The kernel's view of a volume and of its root is that of `mkfs.gas`.  It does not speak of
contents, apart from the root directory: what the maps hold is the subject of `Mkfs.Maps`. -/
structure Agrees (size : Nat) (v : Vol) (root : Inode) : Prop where
  inode_list : v.sbi.s_inode_list_start = (filesys_param size).INODE_LIST_START
  data : v.sbi.s_data_block_start = (filesys_param size).data_st
  apart : (regions v.sbi root).Pairwise Disjoint
  inside : ∀ r ∈ regions v.sbi root, r ⊆ Finset.range v.sbi.s_nblocks
  ino : root.i_ino = GAS_ROOT_INO
  dir : S_ISDIR root.i_mode = true
  dot : (found ⟨v, root.paged v, 0⟩ dot).map Prod.snd = some GAS_ROOT_INO
  dotdot : (found ⟨v, root.paged v, 0⟩ dotdot).map Prod.snd = some GAS_ROOT_INO

/-- A kernel that refuses no request: every block and every page is read, and there is memory. -/
structure Env.Calm (env : Env) : Prop where
  bread : ∀ n, env.bread n = true
  pgread : ∀ n, env.pgread n = true
  mem : ∀ n, env.mem n = true

/-- **`mkfs.gas` and mount agree**: whatever kernel mounts the image, if nothing fails.  The host is
any that hands out the blocks of the image, and the device codec is any, since the root is no
device. -/
def MkfsAgrees (size : Nat) (img : Dev) : Prop :=
  ∀ (dev : DevCodec) (host : Host) (env : Env), host.Holds img →
    host.sb_set_blocksize GAS_BLOCK_SIZE ≠ none → env.Calm →
    ∃ v root, (gas_fill_super dev host env).result = .ok (v, root) ∧ Agrees size v root

/-! ## 3. The root directory

The mounted image is unfolded once, in `Image.rootBlock`: inode 1 is read from the list, its first
block is the one `make_rootdir` chose, and the block has the two entries.  `Image.agrees` then puts
the pieces together. -/

section Root

variable {who : Caller} {size n : Nat} {dev₀ img : Dev}

/-- The two entries are written over what was in the block. -/
theorem root_entries_eq (block : Mem) : root_entries block =
    write_entry (write_entry block 0 dot GAS_ROOT_INO) 260 dotdot GAS_ROOT_INO := rfl

/-- **The root directory on a mounted image.**  Its first page is the block that `make_rootdir` wrote,
the two entries over what was there before, and all other pages are zeros. -/
theorem Image.rootBlock (h : Image who (filesys_param size) dev₀ img n) (hok : offset_ok n)
    (hb : 0 < (mkfs_sbi size).s_bam_blocks) (hi : 0 < (mkfs_sbi size).s_iam_blocks) {env : Env}
    (hread : ∀ k, env.bread k = true) {tick : Nat} {v : Vol} {root : Inode}
    (hv : v = { mounted_vol (mkfs_sbi size) hb hi 12 img env with tick := tick })
    (hsize : root.i_size = 520) (h0 : root.blkaddr 0 = n) :
    RootBlock ⟨v, root.paged v, 0⟩ := by
  have hfits := fits_of_offset_ok (offset_ok_of_le hok h.zone)
  obtain ⟨-, -, hnb, -⟩ := mkfs_sbi_of_fits hfits
  have hpages : gas_dir_pages root = 1 := by
    rw [gas_dir_pages, hsize]
    rfl
  have hst : 0 < (filesys_param size).data_st := by
    have hst := (filesys_param_counts size).1
    have hL : (filesys_param size).INODE_LIST_START =
      1 + (filesys_param size).bam_blk + (filesys_param size).iam_blk := rfl
    omega
  have hzone := h.zone
  have hroom := h.room
  have hsbi : v.sbi = mkfs_sbi size := by rw [hv]; rfl
  have hgeo : Geometry v := (mkfs_geometry hfits hsbi (by rw [hv]; rfl)).1
  have hpath : block_to_path v ((0 : Nat) : Int) = [0] := by
    rw [block_to_path_eq hgeo, if_neg, if_pos (by norm_num)]
    rw [hsbi, hnb]
    omega
  have hval : Ctx.val ⟨v, root, 0⟩ [0] = n := h0
  have hmap : (gas_get_block ⟨v, root, 0⟩ 0 false).mapped = some n := by
    have hne : Ctx.val ⟨v, root, 0⟩ (block_to_path v (0 : Nat)) ≠ 0 := by
      rw [hpath, hval]
      omega
    obtain ⟨c', -, he⟩ := gas_get_block_mapped (c := ⟨v, root, 0⟩)
      (fun k => by rw [hv]; exact hread k) hne false
    rw [he, hpath, hval]
  have hblock : v.block n = root_entries (dev₀ n) := by
    rw [← h.entries, hv]
    exact ofWords_le32 (img n)
  refine ⟨hsize, ⟨dev₀ n, fun a _ => ?_⟩, fun k a hk _ => ?_⟩
  · simp only [Inode.paged, gas_readpage, hpages]
    rw [if_neg (by norm_num), hmap]
    simp only [hblock, root_entries_eq]
  · simp only [Inode.paged, gas_readpage, hpages]
    rw [if_pos hk]

/-- The regions of a volume whose sizes are those `mkfs.gas` computed. -/
theorem regions_apart {size n : Nat} {root : Inode} (hfits : (filesys_param size).Fits)
    (hlarge : 256 ≤ (filesys_param size).blk_cnt) (hzone : (filesys_param size).data_st ≤ n)
    (hroom : n + 5 ≤ (filesys_param size).blk_cnt) (h0 : root.blkaddr 0 = n) :
    (regions (mkfs_sbi size) root).Pairwise Disjoint ∧
      ∀ r ∈ regions (mkfs_sbi size) root, r ⊆ Finset.range (mkfs_sbi size).s_nblocks := by
  obtain ⟨hbam, hiam, hnb, -, hlist, -⟩ := mkfs_sbi_of_fits hfits
  have hst : (filesys_param size).data_st =
      (filesys_param size).INODE_LIST_START + (filesys_param size).ino_blk := rfl
  have hL : (filesys_param size).INODE_LIST_START =
      1 + (filesys_param size).bam_blk + (filesys_param size).iam_blk := rfl
  have hdata := hfits.data_st
  have hino : (mkfs_sbi size).s_inode_blocks = (filesys_param size).ino_blk := u32_of_lt (by omega)
  simp only [regions, hbam, hiam, hnb, hlist, hino, h0]
  generalize filesys_param size = gas at *
  constructor
  · simp only [List.pairwise_cons, List.mem_cons, List.not_mem_nil, or_false, forall_eq_or_imp,
      forall_eq, List.Pairwise.nil, and_true, Finset.disjoint_left, Finset.mem_singleton,
      Finset.mem_Ico, not_and, IsEmpty.forall_iff, implies_true]
    refine ⟨⟨?_, ?_, ?_, ?_⟩, ⟨?_, ?_, ?_⟩, ⟨?_, ?_⟩, ?_⟩
    all_goals
      intros
      omega
  · simp only [List.mem_cons, List.not_mem_nil, or_false, forall_eq_or_imp, forall_eq,
      Finset.subset_iff, Finset.mem_singleton, Finset.mem_Ico, Finset.mem_range]
    refine ⟨?_, ?_, ?_, ?_, ?_⟩
    all_goals
      intros
      omega

/-- **An image with an inode list agrees.** The inode list is there from 256 blocks on, and an image
has room for five blocks behind it. -/
theorem Image.agrees (h : Image who (filesys_param size) dev₀ img n) (hok : offset_ok n)
    (hlarge : 256 ≤ (filesys_param size).blk_cnt) : MkfsAgrees size img := by
  intro dev host env hhost hset henv
  have hfits := fits_of_offset_ok (offset_ok_of_le hok h.zone)
  obtain ⟨-, -, -, -, hlist, hdata⟩ := mkfs_sbi_of_fits hfits
  have hr := h.not_refused hok hlarge hhost hset (henv.mem 0) (henv.bread 1)
  obtain ⟨v, root, hmount⟩ := (gas_fill_super_started dev hr).served.mpr
    ⟨fun j _ => henv.bread _, henv.mem _, henv.bread _, henv.mem _⟩
  refine ⟨v, root, hmount, ?_⟩
  obtain ⟨hb, hi, tick, rdev, hv, hroot⟩ := h.mounted hok hlarge hhost hmount
  obtain ⟨op, hop⟩ := gas_set_inode_eq
    (gas_inode_fill (iget_locked_new GAS_ROOT_INO) (root_record who n 520)) rdev
  rw [hop] at hroot
  have hsize : root.i_size = 520 := by rw [hroot]; rfl
  have h0 : root.blkaddr 0 = n := by rw [hroot]; rfl
  have hdir : S_ISDIR root.i_mode = true := by
    have hmode : root.i_mode = rootdir_mode := by rw [hroot]; rfl
    rw [hmode]
    decide
  have hsbi : v.sbi = mkfs_sbi size := by rw [hv]; rfl
  have hpg : ∀ k, v.env.pgread k = true := fun k => by rw [hv]; exact henv.pgread k
  obtain ⟨hd, hslots⟩ := (h.rootBlock hok hb hi henv.bread hv hsize h0).spec
  have hregions := regions_apart hfits hlarge h.zone h.room h0
  rw [← hsbi] at hlist hdata hregions
  refine ⟨hlist, hdata, hregions.1, hregions.2, by rw [hroot]; rfl, hdir, ?_, ?_⟩
  · have hfound : found ⟨v, root.paged v, 0⟩ dot = some (slotPos 0, GAS_ROOT_INO) :=
      (found_eq_some hd isName_dot hpg).mpr ⟨0, by rw [hslots]; rfl, rfl, by rw [hslots]; rfl⟩
    rw [hfound]
    rfl
  · have hfound : found ⟨v, root.paged v, 0⟩ dotdot = some (slotPos 1, GAS_ROOT_INO) :=
      (found_eq_some hd isName_dotdot hpg).mpr ⟨1, by rw [hslots]; rfl, rfl, by rw [hslots]; rfl⟩
    rw [hfound]
    rfl

/-! ## 4. Which devices agree

Three kinds of devices: too small for an inode block, too large for the product of a block number
and the block size, and those between.  Below 256 blocks the image is complete and not mountable;
above 132919295 blocks there is no run that C gives a meaning to. -/

/-- A superblock without an inode block is refused.  Its count of inode blocks is zero then, which
is one of the things the kernel checks. -/
theorem refused_of_small {host : Host} (env : Env)
    (hsuper : super_block_of host.super = init_super_block (filesys_param size))
    (hsmall : (filesys_param size).blk_cnt < 256) : Refused host env := by
  have hz : (filesys_param size).ino_blk = 0 := by
    simp only [filesys_param, GAS_BLOCK_SIZE, INODES_PER_BLOCK, sizeof_gas_inode] at hsmall ⊢
    omega
  have hino : (init_super_block (filesys_param size)).s_inode_blocks = 0 := by
    simp only [init_super_block, hz]
    rfl
  simp only [Refused, hsuper, hino, or_true]

/-- The kernel does not mount a device of fewer blocks. -/
theorem not_agrees_of_small (h : mkfs_main who size dev₀ = some img)
    (hsmall : (filesys_param size).blk_cnt < 256) : ¬MkfsAgrees size img := by
  intro hagree
  obtain ⟨v, root, hmount, -⟩ := hagree linux_dev (plain_host img) calm_env (plain_host_holds img)
    (by simp [plain_host]) ⟨fun _ => rfl, fun _ => rfl, fun _ => rfl⟩
  exact (gas_fill_super_ok hmount).1 (refused_of_small calm_env (mkfs_super h) hsmall)

/-- How a run of `mkfs.gas` ends. -/
inductive MkfsEnd where
  /-- With `exit`, before `Device write complete`. -/
  | exits
  /-- With the first block number whose byte offset is no `int`: what the program does from there on
  C leaves undefined. -/
  | overflows
  /-- With `Device write complete`, and this on the device. -/
  | completes (img : Dev)

/-- The end of the run of `main` on a device of `size` bytes.  A run that would overflow is not
followed any further, so its end does not depend on what the product is taken to be. -/
def mkfs_run (who : Caller) (size : Nat) (dev : Dev) : MkfsEnd :=
  if ∀ b ∈ mkfs_main_passed who size dev, offset_ok b then
    match mkfs_main who size dev with
    | some img => .completes img
    | none => .exits
  else .overflows

/-- Up to 132919295 blocks `mkfs_main` says how the run ends. -/
theorem mkfs_run_of_le (who : Caller) (dev : Dev) (hle : (filesys_param size).blk_cnt ≤ 132919295) :
    mkfs_run who size dev = (mkfs_main who size dev).elim .exits .completes := by
  rw [mkfs_run, if_pos fun b hb => passed_offset_ok hle hb]
  cases mkfs_main who size dev with
  | none => rfl
  | some img => rfl

/-- Beyond them every run meets an overflow. -/
theorem mkfs_run_of_large (who : Caller) (dev : Dev)
    (hlarge : 132919295 < (filesys_param size).blk_cnt) : mkfs_run who size dev = .overflows := by
  obtain ⟨b, hb, hbad⟩ := @exists_overflow_of_large who size dev hlarge
  exact if_neg fun h => hbad (h b hb)

/-- **`mkfs.gas` and mount agree on a device of 256 to 132919295 blocks, and on no other.** A run
that exits with an error is no device that `mkfs.gas` made, and is left out by the hypothesis. -/
theorem mkfs_agrees_iff (h : mkfs_run who size dev₀ ≠ .exits) :
    (∃ img, mkfs_run who size dev₀ = .completes img ∧ MkfsAgrees size img) ↔
      256 ≤ (filesys_param size).blk_cnt ∧ (filesys_param size).blk_cnt ≤ 132919295 := by
  rcases Nat.lt_or_ge 132919295 (filesys_param size).blk_cnt with hlarge | hle
  · rw [mkfs_run_of_large who dev₀ hlarge]
    constructor
    · rintro ⟨img, he, -⟩
      simp at he
    · rintro ⟨-, hle⟩
      omega
  · rw [mkfs_run_of_le who dev₀ hle] at h ⊢
    cases hmain : mkfs_main who size dev₀ with
    | none =>
      rw [hmain] at h
      exact absurd rfl h
    | some img =>
      constructor
      · rintro ⟨img', he, hagree⟩
        obtain rfl := MkfsEnd.completes.inj he
        refine ⟨?_, hle⟩
        by_contra hsmall
        exact not_agrees_of_small hmain (by omega) hagree
      · rintro ⟨hsize, -⟩
        obtain ⟨n, hok, himg⟩ := mkfs_image hsize hmain
        exact ⟨img, rfl, himg.agrees hok hsize⟩

/-- The smallest device, and its image agrees. -/
theorem megabyte_agrees : ∃ img, mkfs_run root_caller 1048576 (fun _ _ => 0) = .completes img ∧
    MkfsAgrees 1048576 img := by
  obtain ⟨img, hmain, -⟩ := mkfs_megabyte
  have hrun : mkfs_run root_caller 1048576 (fun _ _ => 0) = .completes img := by
    rw [mkfs_run_of_le _ _ (by decide), hmain]
    rfl
  exact (mkfs_agrees_iff (by simp [hrun])).mpr (by decide)

end Root

/-! ## 5. Ten blocks

A device of ten blocks is followed step by step to the end of `mkfs.gas`, to see that the program
does finish where the kernel refuses what it leaves.  The inode map, the inode list and the data
zone all begin with block 2 there. -/

section Ten

variable {st : Mkfs} {cur fin : Nat → Mem} {dirty cached : Set Nat}

/-- `gas_add_dentry` goes through, even where the entry goes over the inode list. -/
theorem gas_add_dentry_runs {gas : FilesysParam} (hv : View st cur fin dirty cached)
    {ino_id n size : Nat} (new_ino : Nat) (name : List UInt8) (hlist : gas.INODE_LIST_START ∈ dirty)
    (hdir : (get_record (cur gas.INODE_LIST_START) ino_id).i_size = size) (hsize : size < 4096)
    (hn : (get_record (cur gas.INODE_LIST_START) ino_id).i_blkaddr blkaddr_0 = n)
    (hn32 : n < 4294967296) (hoff : offset_ok n) :
    ∃ st' cur' fin' dirty' cached', gas_add_dentry gas st ino_id name new_ino = some st' ∧
      View st' cur' fin' dirty' cached' ∧ gas.INODE_LIST_START ∈ dirty' ∧
      cur' gas.INODE_LIST_START = edit_record ino_id grow
        (Function.update cur n (put_dentry size name new_ino (cur n)) gas.INODE_LIST_START) := by
  obtain ⟨st1, hread, hv1⟩ := hv.read hoff
  have hmem : n ∈ insert n cached := Set.mem_insert _ _
  have hblk : u32 (n + size / GAS_BLOCK_SIZE) = n := by
    rw [Nat.div_eq_of_lt hsize, Nat.add_zero, u32_of_lt hn32]
  have hmod : size % GAS_BLOCK_SIZE = size := Nat.mod_eq_of_lt hsize
  obtain ⟨fin', hv2⟩ : ∃ fin', View (bc_edit st1 n (put_dentry size name new_ino))
      (Function.update cur n (put_dentry size name new_ino (cur n))) fin' dirty
      (insert n cached) := by
    by_cases hd : n ∈ dirty
    · exact ⟨_, hv1.edit_dirty hd (put_dentry size name new_ino)⟩
    · exact ⟨_, hv1.edit_clean hmem hd (put_dentry size name new_ino)⟩
  have hv3 := hv2.edit_dirty hlist (edit_record ino_id grow)
  obtain ⟨st', hwrite, hv4⟩ := hv3.write hmem
  refine ⟨st', _, _, _, _, ?_, hv4, Set.mem_insert_of_mem n hlist, Function.update_self _ _ _⟩
  simp only [gas_add_dentry, hv.get, hdir, hn, hblk, hmod]
  rw [if_neg (Nat.not_le.mpr hsize)]
  simp only [hread, Option.bind_eq_bind, Option.bind_some]
  exact hwrite

end Ten

/-- The first five free blocks of ten begin with block 2. -/
theorem ten_blocks_region {dev : Dev} (h : Formatted (filesys_param 40960) (fun _ _ => 0) dev) :
    (alloc_region (dev 1) 0 5).1 = 2 := by
  have hbits : ∀ k < 32768, bits (as_map (dev 1)) k = decide (k < 2 ∨ 10 ≤ k) := by
    intro k hk
    have hb := h.bam 0 (by decide) k hk
    rw [Nat.zero_mul, Nat.zero_add] at hb
    rw [bits_as_map]
    exact hb
  have hclear : ClearRun (as_map (dev 1)) 2 5 := by
    intro j h1 h2
    rw [hbits j (by omega)]
    exact decide_eq_false (by omega)
  rcases bitmap_alloc_region_cases (as_map (dev 1)) BITS_PER_BLOCK 0 5 (by decide) (by decide) with
    ⟨p, he, -, hle, hrun, hfirst⟩ | ⟨-, hnone⟩
  · simp only [BITS_PER_BLOCK, GAS_BLOCK_SIZE] at hle
    refine (congrArg Prod.fst he).trans ?_
    have hp := hrun p (Nat.le_refl p) (by omega)
    rw [hbits p (by omega)] at hp
    have hp' := of_decide_eq_false hp
    by_contra hne
    exact hfirst 2 (Nat.zero_le 2) (by omega) hclear
  · exact absurd hclear (hnone 2 (Nat.zero_le 2) (by decide))

/-- `new_inode` on ten blocks: the inode map and the inode list are both block 2, and so is the
block of the root directory.  All three get their block from the same device, so the record of the
root is written into the block of its own entries. -/
theorem ten_blocks_new_inode {dev : Dev}
    (hf : Formatted (filesys_param 40960) (fun _ _ => 0) dev) :
    ∃ st cur fin dirty cached,
      new_inode (filesys_param 40960) root_caller ⟨dev, []⟩ rootdir_mode
        (64 * sizeof_gas_dir_entry) = some (1, st) ∧
      View st cur fin dirty cached ∧ 2 ∈ dirty ∧ (get_record (cur 2) 1).i_size = 0 ∧
      (get_record (cur 2) 1).i_blkaddr blkaddr_0 = 2 := by
  have hregion := ten_blocks_region hf
  have hzero : dev 2 = fun _ => 0 := hf.data 2 (by decide)
  have hI : (filesys_param 40960).IAM_BLOCK_START = 2 := by decide
  have hL : (filesys_param 40960).INODE_LIST_START = 2 := by decide
  have hB : (filesys_param 40960).bam_blk = 1 := by decide
  have hcount : (64 * sizeof_gas_dir_entry + GAS_BLOCK_SIZE - 1) / GAS_BLOCK_SIZE = 5 := by decide
  obtain ⟨st1, ha, hv1⟩ := allocate_inode_spec (filesys_param 40960) (View.empty dev) (by decide)
    (Set.notMem_empty _) (by rw [hI, hzero]; decide)
  rw [hI] at hv1
  generalize of_map (bitmap_set (as_map (dev 2)) 1 1) = A at hv1
  obtain ⟨st2, hg, hv2⟩ := get_inode_spec (filesys_param 40960) hv1 1 (by decide) (by decide)
  have htwo : offset_ok 2 := by decide
  rcases allocate_blk_loop_spec 5 1 0 1 hv2
    (fun b hb => offset_ok_of_le htwo (Nat.le_of_lt hb))
    (fun m hm => by
      obtain rfl : m = 0 := by omega
      simp) with
    ⟨m, hm, -, -, st3, cur3, cached3, hb, hv3, hsub, hother⟩ | ⟨hnone, -⟩
  · obtain rfl : m = 0 := by omega
    rw [Nat.add_zero, Function.update_of_ne (by decide), hregion] at hb
    replace hb : allocate_blk_loop 5 1 0 1 st2 = some (2, st3) := hb
    have hA : cur3 2 = A := by
      rw [hother 2 (by omega), Function.update_self]
    rw [hL] at hsub
    have hmem : 2 ∈ cached3 := hsub (Set.mem_insert _ _)
    have hv5 := (hv3.edit_dirty (b := 2) (by simp) <| edit_record 1 fun ino =>
        { ino with i_blkaddr := Function.update ino.i_blkaddr blkaddr_0 2 }).edit_dirty
      (b := 2) (by simp) <| edit_record 1 fun ino =>
        { ino with
          i_size := 0
          i_nlink := if S_ISDIR rootdir_mode then 2 else 1
          i_uid := u32 root_caller.uid
          i_gid := u32 root_caller.gid
          i_mode := rootdir_mode
          i_ctime := u32 root_caller.time
          i_atime := u32 root_caller.time
          i_mtime := u32 root_caller.time }
    rw [Function.update_idem, Function.update_self, hA] at hv5
    obtain ⟨st6, hw, hv6⟩ := hv5.write hmem
    have hfit1 := (get_record_fits A 1).first_block (n := 2) (by decide)
    generalize hX : edit_record 1 (fun ino =>
      { ino with i_blkaddr := Function.update ino.i_blkaddr blkaddr_0 2 }) A = X at hv5 hv6
    have hX0 : (get_record X 1).i_blkaddr blkaddr_0 = 2 := by
      rw [← hX, get_edit_record]
      · rfl
      · exact hfit1
    refine ⟨st6, _, _, _, _, ?_, hv6, Set.mem_insert _ _, ?_⟩
    · simp only [new_inode, hcount, ha, hg, hL, hB, hb, allocate_blk, BAM_BLOCK_START,
        Option.bind_eq_bind, Option.bind_some]
      rw [if_neg (by decide), if_neg (by decide), hw]
      rfl
    · rw [Function.update_self, get_edit_record]
      · exact ⟨rfl, hX0⟩
      · exact GasInode.fits_of_fields (u32_lt _) (u32_lt _) (Nat.succ_pos _) (u32_lt _) (u32_lt _)
          (u32_lt _) (get_record_fits X 1).i_blkaddr
  · exact absurd (hnone 0 (by omega)) (by
      rw [Nat.add_zero, Function.update_of_ne (by decide), hregion]
      decide)

/-- **On ten blocks `mkfs.gas` runs to its end.** -/
theorem mkfs_ten_blocks : ∃ img, mkfs_main root_caller 40960 (fun _ _ => 0) = some img := by
  have htwo : offset_ok 2 := by decide
  have hoff : ∀ b ≤ 2, offset_ok b := fun b hb => offset_ok_of_le htwo hb
  have hL : (filesys_param 40960).INODE_LIST_START = 2 := by decide
  obtain ⟨dev1, dev2, dev3, dev4, h1, h2, h3, h4, hf⟩ := formatted_spec (fun _ _ => 0)
    (show ∀ b < (filesys_param 40960).data_st, offset_ok b from fun b hb => hoff b (Nat.le_of_lt hb))
  obtain ⟨st1, cur1, fin1, dirty1, cached1, hnew, hv1, hd1, hsize1, hblk1⟩ := ten_blocks_new_inode hf
  obtain ⟨st2, hget, hv2⟩ := get_inode_spec (filesys_param 40960) hv1 1 (by decide) (by decide)
  rw [← hL] at hd1 hsize1 hblk1
  obtain ⟨st3, cur3, fin3, dirty3, cached3, hadd3, hv3, hd3, hcur3⟩ := gas_add_dentry_runs hv2
    GAS_ROOT_INO [46] hd1 hsize1 (by decide) hblk1 (by decide)
    (hoff 2 (Nat.le_refl 2))
  rw [hL, Function.update_self] at hcur3
  -- the first entry goes over the record of the root
  have hrec3 : (get_record (cur3 (filesys_param 40960).INODE_LIST_START) 1).i_size = 260 ∧
      (get_record (cur3 (filesys_param 40960).INODE_LIST_START) 1).i_blkaddr blkaddr_0 = 0 := by
    rw [hL] at hsize1 ⊢
    rw [hcur3, get_edit_record]
    · refine ⟨?_, le32_zero fun k hk => put_dentry_padding _ _ ?_ ?_⟩
      · simp only [grow, i_size_put_dentry GAS_ROOT_INO hsize1]
        decide
      all_goals
        simp only [sizeof_gas_inode, blkaddr_0]
        omega
    · exact (get_record_fits _ 1).grow
  obtain ⟨st4, cur4, fin4, dirty4, cached4, hadd4, hv4, -⟩ := gas_add_dentry_runs hv3
    GAS_ROOT_INO [46, 46] hd3 hrec3.1 (by decide) hrec3.2 (by decide)
    (hoff 0 (Nat.zero_le 2))
  obtain ⟨st5, hsync, -⟩ := hv4.sync
  refine ⟨st5.dev, ?_⟩
  simp only [mkfs_main, make_rootdir, h1, h2, h3, h4, hnew, hget, hadd3, hadd4, Option.bind_eq_bind,
    Option.bind_some]
  rw [if_neg (by decide), Option.bind_some, hsync]
  rfl

/-- The kernel refuses what `mkfs.gas` leaves on ten blocks. -/
theorem ten_blocks_refused : ¬∀ (who : Caller) (size : Nat) (dev₀ img : Dev),
    mkfs_main who size dev₀ = some img → MkfsAgrees size img := by
  intro hall
  obtain ⟨img, h⟩ := mkfs_ten_blocks
  exact not_agrees_of_small h (by decide) (hall _ _ _ _ h)

end GasFs
