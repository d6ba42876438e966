/-
# The root directory, and the finished image

`make_rootdir` follows the writing of the maps: it takes the inode number 1, reserves five blocks
(64 entries of 260 bytes), notes the first of them in the inode, and writes the two entries `.` and
`..` into it.  All of it goes through the cache, so the device changes in four blocks at the very
end: a map block, the first block of the inode map, the first block of the inode list, and the
first of the five blocks.

`mkfs_image` is the result: what is in every block `mkfs.gas` is responsible for.  `mkfs_isSome` is
the converse, for the devices whose data zone begins inside a map block with room for five blocks.

The order of the proofs is that of the program, from the inside out: an entry, the inode with its
region, `make_rootdir` with the final `bc_sync`, and `main` in front of it.  Each is stated for a
`View` of the cache, so the contents of the blocks are functions that grow by one `update` a step.

The places are those of the device before, except for one: the region of the root directory is found
by a search, and `FirstRoom` names the map block that gives it.  On the maps `main` has just written
the search can be followed, which is `Formatted.root_region`.
-/
import GasFs.Mkfs.Image

namespace GasFs

open Bytes BitArray

/-! ## 1. One entry

`gas_add_dentry` reads the size from the record, writes the entry at that offset into the first
block of the directory, and adds the length of an entry to the size.  Both blocks are marked already
or are marked by it. -/

section Entry

variable {st : Mkfs} {cur fin : Nat → Mem} {dirty cached : Set Nat}

/-- The record after an entry was added. -/
def grow (ino : GasInode) : GasInode :=
  { ino with i_size := u32 (ino.i_size + sizeof_gas_dir_entry) }

/-- **`gas_add_dentry`** writes the entry and the grown size, both of them to the device in the end.
The directory must have room in its first block, which is the only one looked at. -/
theorem gas_add_dentry_spec {gas : FilesysParam} (hv : View st cur fin dirty cached) (ino_id : Nat)
    (name : List UInt8) (new_ino n size : Nat) (hlist : gas.INODE_LIST_START ∈ dirty)
    (hdir : (get_record (cur gas.INODE_LIST_START) ino_id).i_size = size) (hsize : size < 4096)
    (hn : (get_record (cur gas.INODE_LIST_START) ino_id).i_blkaddr blkaddr_0 = n) (hn32 : n < 4294967296)
    (hoff : offset_ok n) (hne : n ≠ gas.INODE_LIST_START) :
    ∃ st', gas_add_dentry gas st ino_id name new_ino = some st' ∧
      View st'
        (Function.update (Function.update cur n (put_dentry size name new_ino (cur n)))
          gas.INODE_LIST_START (edit_record ino_id grow (cur gas.INODE_LIST_START)))
        (Function.update (Function.update fin n (put_dentry size name new_ino (cur n)))
          gas.INODE_LIST_START (edit_record ino_id grow (cur gas.INODE_LIST_START)))
        (insert n dirty) (insert n cached) := by
  obtain ⟨st1, hread, hv1⟩ := hv.read hoff
  have hmem : n ∈ insert n cached := Set.mem_insert _ _
  have hblk : u32 (n + size / GAS_BLOCK_SIZE) = n := by
    rw [Nat.div_eq_of_lt hsize, Nat.add_zero, u32_of_lt hn32]
  have hmod : size % GAS_BLOCK_SIZE = size := Nat.mod_eq_of_lt hsize
  -- the block of entries may have been marked by an earlier entry
  obtain ⟨fin', hfin', hv2⟩ : ∃ fin',
      (fin' = fin ∨ fin' = Function.update fin n (put_dentry size name new_ino (cur n))) ∧
      View (bc_edit st1 n (put_dentry size name new_ino))
        (Function.update cur n (put_dentry size name new_ino (cur n))) fin' dirty
        (insert n cached) := by
    by_cases hd : n ∈ dirty
    · exact ⟨_, Or.inr rfl, hv1.edit_dirty hd (put_dentry size name new_ino)⟩
    · exact ⟨_, Or.inl rfl, hv1.edit_clean hmem hd (put_dentry size name new_ino)⟩
  have hv3 := hv2.edit_dirty hlist (edit_record ino_id grow)
  rw [Function.update_of_ne hne.symm] at hv3
  obtain ⟨st', hwrite, hv4⟩ := hv3.write hmem
  refine ⟨st', ?_, ?_⟩
  · simp only [gas_add_dentry, hv.get, hdir, hn, hblk, hmod]
    rw [if_neg (Nat.not_le.mpr hsize)]
    simp only [hread, Option.bind_eq_bind, Option.bind_some]
    exact hwrite
  · rw [Function.update_of_ne hne, Function.update_self, Function.update_comm hne.symm] at hv4
    have hfin : Function.update fin' n (put_dentry size name new_ino (cur n)) =
        Function.update fin n (put_dentry size name new_ino (cur n)) := by
      rcases hfin' with rfl | rfl
      · rfl
      · rw [Function.update_idem]
    rw [hfin] at hv4
    exact hv4

end Entry

/-! ## 2. The root directory

`new_inode` takes number 1, since the number 0 is marked, and asks for five blocks at once.  The
record gets the first of them; the four others are marked in the map and noted nowhere.  Without
room `make_rootdir` ends the program. -/

/-- The record of the root directory: its first block and its size.  The size is 520 in the end, two
entries of 260 bytes. -/
def root_record (who : Caller) (n size : Nat) : GasInode where
  i_mode := rootdir_mode
  i_nlink := 2
  i_uid := u32 who.uid
  i_gid := u32 who.gid
  i_size := size
  i_atime := u32 who.time
  i_mtime := u32 who.time
  i_ctime := u32 who.time
  i_blkaddr := Function.update (fun _ => 0) blkaddr_0 n

/-- A truncated number is a 32-bit number. -/
theorem u32_lt (x : Nat) : u32 x < 4294967296 := Nat.mod_lt x (by norm_num)

/-- One block pointer among zeros. -/
theorem update_zero_lt {n : Nat} (hn : n < 4294967296) (i : Fin 9) :
    Function.update (fun _ => 0) blkaddr_0 n i < 4294967296 := by
  rw [Function.update_apply]
  split
  · exact hn
  · norm_num

/-- The record of the root directory fits its fields. -/
theorem root_record_fits (who : Caller) {n size : Nat} (hn : n < 4294967296)
    (hsize : size < 4294967296) : (root_record who n size).Fits := by
  refine GasInode.fits_of (fun k h0 h7 => ?_) (update_zero_lt hn)
  match k with
  | 0 => exact absurd h0 (Nat.lt_irrefl 0)
  | 1 => exact u32_lt _
  | 2 => exact u32_lt _
  | 3 => exact hsize
  | 4 => exact u32_lt _
  | 5 => exact u32_lt _
  | 6 => exact u32_lt _
  | ⟨i + 7, h⟩ => exact absurd h7 (by simp)

/-- The record of zeros with its first pointer set. -/
theorem first_pointer_fits {n : Nat} (hn : n < 4294967296) :
    GasInode.Fits { zero_record with i_blkaddr := Function.update (fun _ => 0) blkaddr_0 n } := by
  refine GasInode.fits_of (fun k h0 h7 => ?_) (update_zero_lt hn)
  match k with
  | 0 => exact absurd h0 (Nat.lt_irrefl 0)
  | 1 | 2 | 3 | 4 | 5 | 6 => exact Nat.zero_lt_succ _
  | ⟨i + 7, h⟩ => exact absurd h7 (by simp)

/-- A device with empty maps and an empty inode list, as `make_rootdir` finds it.  Number 1 is
free, and the first block of the inode list is all zeros. -/
structure Prepared (gas : FilesysParam) (dev : Dev) : Prop where
  offset : ∀ b ≤ gas.INODE_LIST_START, offset_ok b
  bam_le : gas.bam_blk ≤ 131072
  iam_pos : 0 < gas.iam_blk
  root_free : map_bit (dev gas.IAM_BLOCK_START) 1 = false
  list_zero : dev gas.INODE_LIST_START = fun _ => 0

/-- The answer of map block `m` to the request for the five blocks of the root directory. -/
abbrev root_region (dev : Dev) (m : Nat) : Nat × (Nat → BitVec 64) :=
  alloc_region (dev (1 + m)) 0 5

/-- The first block reserved. -/
abbrev root_blk (dev : Dev) (m : Nat) : Nat := (root_region dev m).1 + m * 32768

/-- The map blocks in front of `m` have no room.  Room is what `bitmap_alloc_region` answers with,
so room at position 0 of a map block is none. -/
structure FirstRoom (gas : FilesysParam) (dev : Dev) (m : Nat) : Prop where
  lt : m < gas.bam_blk
  room : (root_region dev m).1 ≠ 0
  before : ∀ m' < m, (root_region dev m').1 = 0

section Root

variable {gas : FilesysParam} {dev : Dev} (who : Caller)

/-- The block of the root directory is not block 0, and its number has 32 bits. -/
theorem root_blk_lt (hp : Prepared gas dev) {m : Nat} (hm : FirstRoom gas dev m) :
    root_blk dev m ≠ 0 ∧ root_blk dev m < 4294967296 := by
  have hb := hp.bam_le
  have hlt := hm.lt
  have hroom := hm.room
  rcases bitmap_alloc_region_cases (as_map (dev (1 + m))) BITS_PER_BLOCK 0 5 (by decide)
    (by decide) with ⟨p, he, -, hle, -⟩ | ⟨he, -⟩
  · have hpos : (root_region dev m).1 = p := congrArg Prod.fst he
    simp only [BITS_PER_BLOCK, GAS_BLOCK_SIZE] at hle
    rw [hpos] at hroom
    rw [root_blk, hpos]
    omega
  · exact absurd (congrArg Prod.fst he) hroom

/-- Only one map block is the first with room. -/
theorem FirstRoom.unique {m m' : Nat} (h : FirstRoom gas dev m) (h' : FirstRoom gas dev m') :
    m = m' := by
  rcases Nat.lt_trichotomy m m' with hlt | he | hgt
  · exact absurd (h'.before m hlt) h.room
  · exact he
  · exact absurd (h.before m' hgt) h'.room

/-- What `new_inode` sets in the record when it has blocks. -/
abbrev set_pointer (n : Nat) (ino : GasInode) : GasInode :=
  { ino with i_blkaddr := Function.update ino.i_blkaddr blkaddr_0 n }

/-- What it sets then: all fields but the pointers. -/
abbrev set_fields (ino : GasInode) : GasInode :=
  { ino with
    i_size := 0
    i_nlink := if S_ISDIR rootdir_mode then 2 else 1
    i_uid := u32 who.uid
    i_gid := u32 who.gid
    i_mode := rootdir_mode
    i_ctime := u32 who.time
    i_atime := u32 who.time
    i_mtime := u32 who.time }

/-- The block of records that results: the root's, and zeros. -/
theorem get_new_root {n : Nat} (hn : n < 4294967296) :
    get_record (edit_record 1 (set_fields who) (edit_record 1 (set_pointer n) fun _ => 0)) 1 =
        root_record who n 0 ∧
      ∀ ino_id ≠ 1, get_record (edit_record 1 (set_fields who)
        (edit_record 1 (set_pointer n) fun _ => 0)) ino_id = zero_record := by
  have hptr : get_record (edit_record 1 (set_pointer n) fun _ => 0) 1 =
      { zero_record with i_blkaddr := Function.update (fun _ => 0) blkaddr_0 n } := by
    rw [get_edit_record, get_record_zero]
    · rfl
    · exact first_pointer_fits hn
  refine ⟨?_, fun ino_id hne => ?_⟩
  · rw [get_edit_record, hptr]
    · rfl
    · rw [hptr]
      exact root_record_fits who hn (by norm_num)
  · rw [get_edit_record_of_ne _ _ hne, get_edit_record_of_ne _ _ hne, get_record_zero]

/-- **`new_inode` for the root directory**: the number 1, and a record with the first of five
blocks; or there is no room for the blocks.  In the second case the number was given back, and
`new_inode` returns 0. -/
theorem new_inode_spec (hp : Prepared gas dev) :
    (∃ m, FirstRoom gas dev m ∧ ∃ st' cur' list cached',
      new_inode gas who ⟨dev, []⟩ rootdir_mode (64 * sizeof_gas_dir_entry) = some (1, st') ∧
      View st' cur'
        (Function.update
          (Function.update
            (Function.update dev gas.IAM_BLOCK_START
              (of_map (bitmap_set (as_map (dev gas.IAM_BLOCK_START)) 1 1)))
            (1 + m) (of_map (root_region dev m).2))
          gas.INODE_LIST_START list)
        {gas.INODE_LIST_START, 1 + m, gas.IAM_BLOCK_START} cached' ∧
      cur' gas.INODE_LIST_START = list ∧ (∀ b, gas.INODE_LIST_START < b → cur' b = dev b) ∧
      get_record list 1 = root_record who (root_blk dev m) 0 ∧
      ∀ ino_id ≠ 1, get_record list ino_id = zero_record) ∨
    ((∀ m < gas.bam_blk, (root_region dev m).1 = 0) ∧
      make_rootdir gas who ⟨dev, []⟩ = none) := by
  have hI : gas.IAM_BLOCK_START = 1 + gas.bam_blk := rfl
  have hL : gas.INODE_LIST_START = gas.IAM_BLOCK_START + gas.iam_blk := rfl
  have hi := hp.iam_pos
  have hLoff := hp.offset _ (Nat.le_refl _)
  obtain ⟨st1, h1, hv1⟩ := allocate_inode_spec gas (View.empty dev)
    (hp.offset gas.IAM_BLOCK_START (by omega)) (Set.notMem_empty _) hp.root_free
  generalize of_map (bitmap_set (as_map (dev gas.IAM_BLOCK_START)) 1 1) = A at hv1 ⊢
  obtain ⟨st2, h2, hv2⟩ := get_inode_spec gas hv1 1 hLoff (by norm_num)
  have hmaps : ∀ m < gas.bam_blk, Function.update dev gas.IAM_BLOCK_START A (1 + m) = dev (1 + m) :=
    fun m hm => Function.update_of_ne (by omega) _ _
  have hcount : (64 * sizeof_gas_dir_entry + GAS_BLOCK_SIZE - 1) / GAS_BLOCK_SIZE = 5 := by decide
  rcases allocate_blk_loop_spec 5 gas.bam_blk 0 1 hv2 (fun b hb => hp.offset b (by omega))
    (fun m hm h => by
      rcases Set.mem_insert_iff.mp h with h | h
      · omega
      · exact Set.notMem_empty _ h) with
    ⟨m, hm, hroom, hbefore, st3, cur', cached', h3, hv3, hsub, hother⟩ | ⟨hnone, st3, h3⟩
  · rw [hmaps m hm] at hroom h3 hv3
    have hfirst : FirstRoom gas dev m := ⟨hm, hroom, fun m' hm' => by
      have h := hbefore m' hm'
      rw [hmaps m' (by omega)] at h
      exact h⟩
    obtain ⟨hn0, hn32⟩ := root_blk_lt hp hfirst
    rw [Nat.zero_add, u32_of_lt hn32] at h3
    have hmem : gas.INODE_LIST_START ∈ cached' := hsub (Set.mem_insert _ _)
    have hclean : gas.INODE_LIST_START ∉
        (insert (1 + m) (insert gas.IAM_BLOCK_START ∅) : Set Nat) := by
      simp only [Set.mem_insert_iff, Set.mem_empty_iff_false, or_false]
      omega
    have hzero : cur' gas.INODE_LIST_START = fun _ => 0 := by
      rw [hother _ (by omega), Function.update_of_ne (by omega), hp.list_zero]
    have hv4 := hv3.edit_clean hmem hclean (edit_record 1 (set_pointer (root_blk dev m)))
    have hv5 := hv4.edit_clean hmem hclean (edit_record 1 (set_fields who))
    rw [Function.update_self, Function.update_idem, hzero] at hv5
    obtain ⟨st6, h6, hv6⟩ := hv5.write hmem
    rw [Function.update_self, insert_empty_eq] at hv6
    refine Or.inl ⟨m, hfirst, st6, _, _, cached', ?_, hv6, Function.update_self _ _ _,
      fun b hb => ?_, get_new_root who hn32⟩
    · simp only [new_inode, hcount, h1, h2, allocate_blk, h3, Option.bind_eq_bind,
        Option.bind_some]
      rw [if_neg (by decide), if_neg hn0, h6]
      rfl
    · rw [Function.update_of_ne (by omega), hother b (by omega), Function.update_of_ne (by omega)]
  · have hnone' : ∀ m < gas.bam_blk, (root_region dev m).1 = 0 := fun m hm => by
      have h := hnone m hm
      rw [hmaps m hm] at h
      exact h
    refine Or.inr ⟨hnone', ?_⟩
    simp only [make_rootdir, new_inode, hcount, h1, h2, allocate_blk, h3, Option.bind_eq_bind,
      Option.bind_some]
    rw [if_neg (by decide), if_pos trivial]
    cases free_inode gas (bc_edit st3 gas.INODE_LIST_START _) 1 with
    | none => rfl
    | some st => rfl

/-- The two entries of the root directory, over what was in the block. -/
def root_entries (block : Mem) : Mem :=
  put_dentry 260 [46, 46] GAS_ROOT_INO (put_dentry 0 [46] GAS_ROOT_INO block)

/-- The blocks `make_rootdir` leaves for the device, when its first block is `n`.  They are a map
block, the inode map, the inode list and the first of the five. -/
def rootdir_blocks (gas : FilesysParam) (dev : Dev) (m n : Nat) (list : Mem) : Dev :=
  Function.update
    (Function.update
      (Function.update
        (Function.update dev gas.IAM_BLOCK_START
          (of_map (bitmap_set (as_map (dev gas.IAM_BLOCK_START)) 1 1)))
        (1 + m) (of_map (root_region dev m).2))
      n (root_entries (dev n)))
    gas.INODE_LIST_START list

/-- **`make_rootdir`**: four blocks change, or there is no root directory.  The cache is written
back as part of it, so the result is about the device. -/
theorem make_rootdir_spec (hp : Prepared gas dev)
    (hzone : ∀ m, FirstRoom gas dev m → gas.INODE_LIST_START < root_blk dev m) :
    (∃ m, FirstRoom gas dev m ∧ offset_ok (root_blk dev m) ∧ ∃ st' st'' list,
      make_rootdir gas who ⟨dev, []⟩ = some st' ∧ bc_sync st' = some st'' ∧
      st''.dev = rootdir_blocks gas dev m (root_blk dev m) list ∧
      get_record list 1 = root_record who (root_blk dev m) 520 ∧
      ∀ ino_id ≠ 1, get_record list ino_id = zero_record) ∨
    ((∀ m, FirstRoom gas dev m → ¬offset_ok (root_blk dev m)) ∧
      make_rootdir gas who ⟨dev, []⟩ = none) := by
  rcases new_inode_spec who hp with
    ⟨m, hm, st1, cur1, list, cached, h1, hv1, hlist, hcur, hrec, hothers⟩ | ⟨hnone, hno⟩
  · obtain ⟨hn0, hn32⟩ := root_blk_lt hp hm
    have hn := hzone m hm
    obtain ⟨st2, h2, hv2⟩ := get_inode_spec gas hv1 1 (hp.offset _ (Nat.le_refl _))
      (by norm_num)
    have hrun : make_rootdir gas who ⟨dev, []⟩ =
        (gas_add_dentry gas st2 1 [46] GAS_ROOT_INO).bind fun st =>
          gas_add_dentry gas st 1 [46, 46] GAS_ROOT_INO := by
      simp only [make_rootdir, h1, h2, Option.bind_eq_bind, Option.bind_some]
      rw [if_neg (by decide)]
    have hlist0 : get_record (cur1 gas.INODE_LIST_START) 1 = root_record who (root_blk dev m) 0 := by
      rw [hlist, hrec]
    by_cases hoff : offset_ok (root_blk dev m)
    · have hne : root_blk dev m ≠ gas.INODE_LIST_START := by omega
      obtain ⟨st3, h3, hv3⟩ := gas_add_dentry_spec hv2 1 [46] GAS_ROOT_INO
        (root_blk dev m) 0 (Set.mem_insert _ _) (by rw [hlist0]; rfl) (Nat.succ_pos 4095)
        (by rw [hlist0]; rfl) hn32 hoff hne
      have hgrow : ∀ (list : Mem) (size : Nat),
          get_record list 1 = root_record who (root_blk dev m) size → size < 4096 →
          get_record (edit_record 1 grow list) 1 = root_record who (root_blk dev m) (size + 260) := by
        intro list size h hsize
        have hg : grow (root_record who (root_blk dev m) size) =
            root_record who (root_blk dev m) (size + 260) := by
          simp only [grow, root_record, sizeof_gas_dir_entry,
            u32_of_lt (show size + 260 < 4294967296 by omega)]
        rw [get_edit_record, h, hg]
        rw [h, hg]
        exact root_record_fits who hn32 (by omega)
      have hlist1 := hgrow _ 0 hlist0 (by decide)
      obtain ⟨st4, h4, hv4⟩ := gas_add_dentry_spec hv3 1 [46, 46] GAS_ROOT_INO
        (root_blk dev m) 260 (Set.mem_insert_of_mem _ (Set.mem_insert _ _))
        (by rw [Function.update_self, hlist1]; rfl) (by decide)
        (by rw [Function.update_self, hlist1]; rfl) hn32 hoff hne
      obtain ⟨st5, h5, hdev⟩ := hv4.sync
      have hrun' : make_rootdir gas who ⟨dev, []⟩ = some st4 := by rw [hrun, h3, Option.bind_some, h4]
      refine Or.inl ⟨m, hm, hoff, st4, st5,
        edit_record 1 grow (edit_record 1 grow (cur1 gas.INODE_LIST_START)), hrun', h5,
        hdev.trans ?_, hgrow _ 260 hlist1 (by decide), fun ino_id hid => ?_⟩
      · rw [rootdir_blocks, root_entries, Function.update_of_ne hne, Function.update_self, hcur _ hn]
        funext b
        rcases eq_or_ne b gas.INODE_LIST_START with rfl | hbL
        · rw [Function.update_self, Function.update_self, Function.update_self]
        · rw [Function.update_of_ne hbL, Function.update_of_ne hbL]
          rcases eq_or_ne b (root_blk dev m) with rfl | hbn
          · rw [Function.update_self, Function.update_self]
          · rw [Function.update_of_ne hbn, Function.update_of_ne hbL, Function.update_of_ne hbn,
              Function.update_of_ne hbL, Function.update_of_ne hbn]
      · rw [get_edit_record_of_ne _ _ hid, get_edit_record_of_ne _ _ hid, hlist]
        exact hothers ino_id hid
    · refine Or.inr ⟨fun m' hm' => ?_, ?_⟩
      · rw [hm'.unique hm]
        exact hoff
      · have hadd : gas_add_dentry gas st2 1 [46] GAS_ROOT_INO = none := by
          have hblk : u32 ((root_record who (root_blk dev m) 0).i_blkaddr blkaddr_0 +
              (root_record who (root_blk dev m) 0).i_size / GAS_BLOCK_SIZE) = root_blk dev m := by
            show u32 (root_blk dev m + 0 / GAS_BLOCK_SIZE) = _
            rw [Nat.zero_div, Nat.add_zero, u32_of_lt hn32]
          simp only [gas_add_dentry, hv2.get, hlist0, hblk, hv2.read_none hoff]
          exact if_neg (Nat.not_le.mpr (Nat.succ_pos 4095))
        rw [hrun, hadd]
        rfl
  · refine Or.inr ⟨fun m hm => absurd (hnone m hm.lt) hm.room, hno⟩

end Root

/-! ## 3. Before the root directory

The superblock, the maps and the inode list are written in this order to blocks that do not overlap.
`Formatted` is the device at that point, and it says nothing of the data zone, which is left as it
was. -/

/-- The device after the superblock, the two maps and the inode list were written.  The data zone
has whatever was on the device before. -/
structure Formatted (gas : FilesysParam) (dev0 dev : Dev) : Prop where
  super : dev 0 = super_block_buffer (init_super_block gas)
  bam : ∀ m < gas.bam_blk, ∀ k < 32768, map_bit (dev (1 + m)) k =
    decide (m * 32768 + k < gas.data_st ∨ gas.blk_cnt ≤ m * 32768 + k)
  iam : ∀ m < gas.iam_blk, ∀ k < 32768, map_bit (dev (gas.IAM_BLOCK_START + m)) k =
    decide (m * 32768 + k < 1 ∨ gas.ino_cnt ≤ m * 32768 + k)
  list : ∀ b, gas.INODE_LIST_START ≤ b → b < gas.data_st → dev b = fun _ => 0
  data : ∀ b, gas.data_st ≤ b → dev b = dev0 b

/-- **The direct writes** succeed when the blocks in front of the data zone have an offset.  Four
writes in a row, each with the device that the one before left. -/
theorem formatted_spec {size : Nat} (dev : Dev)
    (hoff : ∀ b < (filesys_param size).data_st, offset_ok b) :
    ∃ dev1 dev2 dev3 dev4,
      write_block dev 0 (super_block_buffer (init_super_block (filesys_param size))) = some dev1 ∧
      init_block_alloc_map (filesys_param size) dev1 = some dev2 ∧
      init_inode_alloc_map (filesys_param size) dev2 = some dev3 ∧
      init_inode_list (filesys_param size) dev3 = some dev4 ∧ Formatted (filesys_param size) dev dev4 := by
  obtain ⟨hst, -, hbam, hbam', hiam, hiam', -⟩ := filesys_param_counts size
  generalize filesys_param size = gas at *
  have hI : gas.IAM_BLOCK_START = 1 + gas.bam_blk := rfl
  have hL : gas.INODE_LIST_START = gas.IAM_BLOCK_START + gas.iam_blk := rfl
  have h1 := write_block_of_ok (hoff 0 (by omega)) dev (super_block_buffer (init_super_block gas))
  obtain ⟨dev2, h2, hother2, hbits2⟩ := init_alloc_map_loop_spec hbam hbam' gas.bam_blk 0
    gas.data_st 1 (Function.update dev 0 (super_block_buffer (init_super_block gas)))
    (Nat.zero_add _) fun b hb => hoff b (by omega)
  obtain ⟨dev3, h3, hother3, hbits3⟩ := init_alloc_map_loop_spec hiam hiam' gas.iam_blk 0 1
    gas.IAM_BLOCK_START dev2 (Nat.zero_add _) fun b hb => hoff b (by omega)
  obtain ⟨dev4, h4, hdev4⟩ := init_inode_list_loop_spec gas.ino_blk gas.INODE_LIST_START dev3
    fun b hb => hoff b (by omega)
  refine ⟨_, dev2, dev3, dev4, h1, h2, h3, h4, ?_, fun m hm k hk => ?_, fun m hm k hk => ?_,
    fun b hlo hhi => ?_, fun b hb => ?_⟩
  · rw [hdev4, if_neg (by omega), hother3 0 (by omega), hother2 0 (by omega), Function.update_self]
  · rw [hdev4, if_neg (by omega), hother3 _ (by omega), hbits2 m hm k hk, Nat.zero_add]
  · rw [hdev4, if_neg (by omega), hbits3 m hm k hk, Nat.zero_add]
  · rw [hdev4, if_pos (by omega)]
  · rw [hdev4, if_neg (by omega), hother3 b (by omega), hother2 b (by omega),
      Function.update_of_ne (by omega)]

/-- Conversely, the inode list can be written only where there is an offset. -/
theorem offset_of_init_inode_list_loop : ∀ {n block : Nat} {dev dev' : Dev},
    init_inode_list_loop n block dev = some dev' → ∀ b, block ≤ b → b < block + n → offset_ok b := by
  intro n
  induction n with
  | zero => exact fun _ b h1 h2 => absurd h2 (by omega)
  | succ n ih =>
    intro block dev dev' h b h1 h2
    simp only [init_inode_list_loop, Option.bind_eq_bind, Option.bind_eq_some_iff] at h
    obtain ⟨dev1, hw, h⟩ := h
    rcases Nat.eq_or_lt_of_le h1 with rfl | hlt
    · exact (write_block_eq_some.mp hw).1
    · exact ih h b hlt (by omega)

/-! ## 4. The image

`Image` is what is known of the device in the end: the five regions, each by the block or bit.  The
two directions of the section are for a run that succeeded (`mkfs_image`) and for a device on which
it must (`mkfs_isSome`). -/

/-- **The image `mkfs.gas` leaves**: what the five blocks from `n` on were reserved for, and every
block written.  Of the data zone only block `n` is written; the other four blocks reserved keep what
was in them. -/
structure Image (who : Caller) (gas : FilesysParam) (dev img : Dev) (n : Nat) : Prop where
  zone : gas.data_st ≤ n
  room : n + 5 ≤ gas.blk_cnt
  super : img 0 = super_block_buffer (init_super_block gas)
  bam : ∀ m < gas.bam_blk, ∀ k < 32768, map_bit (img (1 + m)) k =
    decide (m * 32768 + k < gas.data_st ∨ gas.blk_cnt ≤ m * 32768 + k ∨
      (n ≤ m * 32768 + k ∧ m * 32768 + k < n + 5))
  iam : ∀ m < gas.iam_blk, ∀ k < 32768, map_bit (img (gas.IAM_BLOCK_START + m)) k =
    decide (m * 32768 + k ≤ 1 ∨ gas.ino_cnt ≤ m * 32768 + k)
  records : ∀ ino < gas.ino_cnt, get_record (img (gas.INODE_LIST_START + ino / 64)) (ino % 64) =
    if ino = 1 then root_record who n 520 else zero_record
  entries : img n = root_entries (dev n)
  data : ∀ b, gas.data_st ≤ b → b ≠ n → img b = dev b

section Image

variable {who : Caller} {size : Nat} {dev dev4 img : Dev}

/-- A device of 256 blocks has an inode list. -/
theorem ino_blk_pos (h : 256 ≤ (filesys_param size).blk_cnt) :
    0 < (filesys_param size).ino_blk ∧ 0 < (filesys_param size).iam_blk ∧
      0 < (filesys_param size).bam_blk := by
  simp only [filesys_param, BITS_PER_BLOCK, GAS_BLOCK_SIZE, INODES_PER_BLOCK, sizeof_gas_inode] at *
  omega

/-- The device is ready for the root directory. -/
theorem Formatted.prepared (h : Formatted (filesys_param size) dev dev4)
    (hsize : 256 ≤ (filesys_param size).blk_cnt)
    (hoff : ∀ b < (filesys_param size).data_st, offset_ok b) :
    Prepared (filesys_param size) dev4 := by
  obtain ⟨hino, hi, -⟩ := ino_blk_pos hsize
  obtain ⟨hst, hcnt, -, hbam', -, -, hquarter⟩ := filesys_param_counts size
  refine ⟨fun b hb => hoff b (by omega), ?_, hi, ?_, h.list _ (Nat.le_refl _) (by omega)⟩
  · have hlast := hoff ((filesys_param size).data_st - 1) (by omega)
    simp only [offset_ok, GAS_BLOCK_SIZE] at hlast
    have hblk : (filesys_param size).blk_cnt < ((filesys_param size).ino_blk + 1) * 256 := by
      simp only [filesys_param, GAS_BLOCK_SIZE, INODES_PER_BLOCK, sizeof_gas_inode]
      omega
    omega
  · have hb := h.iam 0 hi 1 (by norm_num)
    rw [Nat.add_zero] at hb
    rw [hb]
    exact decide_eq_false (by omega)

/-- The first region found lies in the data zone. -/
theorem Formatted.root_region (h : Formatted (filesys_param size) dev dev4) {m : Nat}
    (hm : FirstRoom (filesys_param size) dev4 m) :
    (filesys_param size).data_st ≤ root_blk dev4 m ∧
      root_blk dev4 m + 5 ≤ (filesys_param size).blk_cnt ∧
      (GasFs.root_region dev4 m).1 + 5 ≤ 32768 ∧
      (GasFs.root_region dev4 m).2 =
        bitmap_set (as_map (dev4 (1 + m))) (GasFs.root_region dev4 m).1 5 := by
  rcases bitmap_alloc_region_cases (as_map (dev4 (1 + m))) BITS_PER_BLOCK 0 5 (by decide)
    (by decide) with ⟨p, he, -, hle, hrun, -⟩ | ⟨he, -⟩
  · simp only [BITS_PER_BLOCK, GAS_BLOCK_SIZE] at hle
    have hpos : (GasFs.root_region dev4 m).1 = p := congrArg Prod.fst he
    have hmap : (GasFs.root_region dev4 m).2 = bitmap_set (as_map (dev4 (1 + m))) p 5 :=
      congrArg Prod.snd he
    have hclear : ∀ j, p ≤ j → j < p + 5 → ¬(m * 32768 + j < (filesys_param size).data_st ∨
        (filesys_param size).blk_cnt ≤ m * 32768 + j) := by
      intro j h1 h2
      have hb := hrun j h1 h2
      rw [bits_as_map, h.bam m hm.lt j (by omega)] at hb
      exact of_decide_eq_false hb
    have hfirst := hclear p (Nat.le_refl p) (by omega)
    have hlast := hclear (p + 4) (by omega) (by omega)
    rw [hmap, root_blk, hpos]
    exact ⟨by omega, by omega, hle, rfl⟩
  · exact absurd (congrArg Prod.fst he) hm.room

/-- What `make_rootdir` adds to a blank device makes it the image.  The four blocks that change are
different ones, so each shows its own change. -/
theorem Formatted.image (h : Formatted (filesys_param size) dev dev4)
    (hsize : 256 ≤ (filesys_param size).blk_cnt) {m : Nat}
    (hm : FirstRoom (filesys_param size) dev4 m) {list : Mem}
    (hrec : get_record list 1 = root_record who (root_blk dev4 m) 520)
    (hothers : ∀ ino_id ≠ 1, get_record list ino_id = zero_record) :
    Image who (filesys_param size) dev
      (rootdir_blocks (filesys_param size) dev4 m (root_blk dev4 m) list) (root_blk dev4 m) := by
  obtain ⟨hino, hi, -⟩ := ino_blk_pos hsize
  obtain ⟨hst, hcnt, -⟩ := filesys_param_counts size
  obtain ⟨hzone, hroom, hfit, hmap⟩ := h.root_region hm
  have hlt := hm.lt
  have hn : root_blk dev4 m = (GasFs.root_region dev4 m).1 + m * 32768 := rfl
  generalize filesys_param size = gas at *
  generalize root_blk dev4 m = n at *
  have hI : gas.IAM_BLOCK_START = 1 + gas.bam_blk := rfl
  have hL : gas.INODE_LIST_START = gas.IAM_BLOCK_START + gas.iam_blk := rfl
  -- every block but the four is the blank one
  have hsame : ∀ b, b ≠ gas.INODE_LIST_START → b ≠ n → b ≠ 1 + m → b ≠ gas.IAM_BLOCK_START →
      rootdir_blocks gas dev4 m n list b = dev4 b := by
    intro b h1 h2 h3 h4
    rw [rootdir_blocks, Function.update_of_ne h1, Function.update_of_ne h2,
      Function.update_of_ne h3, Function.update_of_ne h4]
  refine ⟨hzone, hroom, ?_, fun m' hm' k hk => ?_, fun m' hm' k hk => ?_, fun ino hlt' => ?_, ?_,
    fun b hb hne => ?_⟩
  · rw [hsame 0 (by omega) (by omega) (by omega) (by omega), h.super]
  · rcases eq_or_ne m' m with rfl | hne
    · rw [rootdir_blocks, Function.update_of_ne (by omega), Function.update_of_ne (by omega),
        Function.update_self, map_bit_of_map, hmap, bits_bitmap_set, bits_as_map,
        h.bam m' hm' k hk, ← Bool.decide_or]
      exact decide_eq_decide.mpr (by omega)
    · rw [hsame _ (by omega) (by omega) (by omega) (by omega), h.bam m' hm' k hk]
      exact decide_eq_decide.mpr (by omega)
  · rcases Nat.eq_zero_or_pos m' with rfl | hpos
    · rw [Nat.add_zero, rootdir_blocks, Function.update_of_ne (by omega),
        Function.update_of_ne (by omega), Function.update_of_ne (by omega), Function.update_self,
        map_bit_of_map, bits_bitmap_set, bits_as_map]
      have hb := h.iam 0 hm' k hk
      rw [Nat.add_zero] at hb
      rw [hb, ← Bool.decide_or]
      exact decide_eq_decide.mpr (by omega)
    · rw [hsame _ (by omega) (by omega) (by omega) (by omega), h.iam m' hm' k hk]
      exact decide_eq_decide.mpr (by omega)
  · by_cases hfirst : ino / 64 = 0
    · rw [hfirst, Nat.add_zero, rootdir_blocks, Function.update_self]
      by_cases h1 : ino = 1
      · rw [if_pos h1, h1]
        exact hrec
      · rw [if_neg h1]
        exact hothers _ (by omega)
    · rw [hsame _ (by omega) (by omega) (by omega) (by omega), if_neg (by omega),
        h.list _ (by omega) (by omega), get_record_zero]
  · rw [rootdir_blocks, Function.update_of_ne (by omega), Function.update_self, h.data n hzone]
  · rw [hsame b (by omega) hne (by omega) (by omega), h.data b hb]

/-- **What `mkfs.gas` leaves on the device, when it succeeds.** `n` is the first block of the root
directory. -/
theorem mkfs_image (hsize : 256 ≤ (filesys_param size).blk_cnt)
    (h : mkfs_main who size dev = some img) :
    ∃ n, offset_ok n ∧ Image who (filesys_param size) dev img n := by
  obtain ⟨hino, -⟩ := ino_blk_pos hsize
  have hst := (filesys_param_counts size).1
  simp only [mkfs_main, Option.bind_eq_bind, Option.bind_eq_some_iff] at h
  obtain ⟨dev1, h1, dev2, h2, dev3, h3, dev4, h4, st, h5, st', h6, h7⟩ := h
  have hlast := offset_of_init_inode_list_loop h4 ((filesys_param size).data_st - 1) (by omega)
    (by omega)
  have hoff : ∀ b < (filesys_param size).data_st, offset_ok b :=
    fun b hb => offset_ok_of_le hlast (by omega)
  obtain ⟨dev1', dev2', dev3', dev4', h1', h2', h3', h4', hblank⟩ := formatted_spec dev hoff
  obtain rfl := Option.some.inj (h1.symm.trans h1')
  obtain rfl := Option.some.inj (h2.symm.trans h2')
  obtain rfl := Option.some.inj (h3.symm.trans h3')
  obtain rfl := Option.some.inj (h4.symm.trans h4')
  have hprep := hblank.prepared hsize hoff
  have hzone : ∀ m, FirstRoom (filesys_param size) dev4 m →
      (filesys_param size).INODE_LIST_START < root_blk dev4 m :=
    fun m hm => Nat.lt_of_lt_of_le (by omega) (hblank.root_region hm).1
  rcases make_rootdir_spec who hprep hzone with
    ⟨m, hm, hok, st1, st2, list, hrun, hsync, hdev, hrec, hothers⟩ | ⟨-, hnone⟩
  · obtain rfl := Option.some.inj (h5.symm.trans hrun)
    obtain rfl := Option.some.inj (h6.symm.trans hsync)
    obtain rfl := Option.some.inj h7
    rw [hdev]
    exact ⟨_, hok, hblank.image hsize hm hrec hothers⟩
  · rw [hnone] at h5
    simp at h5

/-- On a blank device the region begins where the data zone does, if it fits the map block. -/
theorem Formatted.firstRoom (h : Formatted (filesys_param size) dev dev4)
    (hroom : (filesys_param size).data_st + 5 ≤ (filesys_param size).blk_cnt)
    (hpos : (filesys_param size).data_st % 32768 ≠ 0)
    (hfit : (filesys_param size).data_st % 32768 + 5 ≤ 32768) :
    FirstRoom (filesys_param size) dev4 ((filesys_param size).data_st / 32768) ∧
      root_blk dev4 ((filesys_param size).data_st / 32768) = (filesys_param size).data_st := by
  have hbam := (filesys_param_counts size).2.2.1
  generalize filesys_param size = gas at *
  have hlt : gas.data_st / 32768 < gas.bam_blk := by omega
  have hset : ∀ m ≤ gas.data_st / 32768, ∀ p, m * 32768 + p < gas.data_st → p < 32768 →
      ¬ClearRun (as_map (dev4 (1 + m))) p 5 := by
    intro m hm p hp hp' hrun
    have hb := hrun p (Nat.le_refl p) (by omega)
    rw [bits_as_map, h.bam m (by omega) p hp'] at hb
    exact of_decide_eq_false hb (Or.inl hp)
  have hclear : ClearRun (as_map (dev4 (1 + gas.data_st / 32768))) (gas.data_st % 32768) 5 := by
    intro j h1 h2
    rw [bits_as_map, h.bam _ hlt j (by omega)]
    exact decide_eq_false (by omega)
  have hregion : (GasFs.root_region dev4 (gas.data_st / 32768)).1 = gas.data_st % 32768 := by
    rcases bitmap_alloc_region_cases (as_map (dev4 (1 + gas.data_st / 32768))) BITS_PER_BLOCK 0 5
      (by decide) (by decide) with ⟨p, he, -, hle, hrun, hfirst⟩ | ⟨-, hnone⟩
    · simp only [BITS_PER_BLOCK, GAS_BLOCK_SIZE] at hle
      refine (congrArg Prod.fst he).trans ?_
      by_contra hne
      rcases Nat.lt_or_gt_of_ne hne with hlt' | hgt
      · exact hset _ (Nat.le_refl _) p (by omega) (by omega) hrun
      · exact hfirst _ (Nat.zero_le _) hgt hclear
    · refine absurd hclear (hnone _ (Nat.zero_le _) ?_)
      simp only [BITS_PER_BLOCK, GAS_BLOCK_SIZE]
      omega
  refine ⟨⟨hlt, by rw [hregion]; exact hpos, fun m hm => ?_⟩, by rw [root_blk, hregion]; omega⟩
  rcases bitmap_alloc_region_cases (as_map (dev4 (1 + m))) BITS_PER_BLOCK 0 5
    (by decide) (by decide) with ⟨p, he, -, hle, hrun, -⟩ | ⟨he, -⟩
  · simp only [BITS_PER_BLOCK, GAS_BLOCK_SIZE] at hle
    exact absurd hrun (hset m (by omega) p (by omega) (by omega))
  · exact congrArg Prod.fst he

/-- **`mkfs.gas` succeeds** when the first five blocks of the data zone have bits in one map block,
not at its very beginning, and an offset.  A device whose data zone begins with a map block, or
close to the end of one, is not covered. -/
theorem mkfs_isSome (who : Caller) (dev : Dev) (hsize : 256 ≤ (filesys_param size).blk_cnt)
    (hroom : (filesys_param size).data_st + 5 ≤ (filesys_param size).blk_cnt)
    (hpos : (filesys_param size).data_st % 32768 ≠ 0)
    (hfit : (filesys_param size).data_st % 32768 + 5 ≤ 32768)
    (hok : offset_ok (filesys_param size).data_st) :
    ∃ img, mkfs_main who size dev = some img ∧
      Image who (filesys_param size) dev img (filesys_param size).data_st := by
  have hoff : ∀ b < (filesys_param size).data_st, offset_ok b :=
    fun b hb => offset_ok_of_le hok (Nat.le_of_lt hb)
  have hino := (ino_blk_pos hsize).1
  have hst := (filesys_param_counts size).1
  obtain ⟨dev1, dev2, dev3, dev4, h1, h2, h3, h4, hblank⟩ := formatted_spec dev hoff
  obtain ⟨hroot, hblk⟩ := hblank.firstRoom hroom hpos hfit
  have hprep := hblank.prepared hsize hoff
  have hzone : ∀ m, FirstRoom (filesys_param size) dev4 m →
      (filesys_param size).INODE_LIST_START < root_blk dev4 m :=
    fun m hm => Nat.lt_of_lt_of_le (by omega) (hblank.root_region hm).1
  rcases make_rootdir_spec who hprep hzone with
    ⟨m, hm, -, st1, st2, list, hrun, hsync, hdev, hrec, hothers⟩ | ⟨hno, -⟩
  · obtain rfl := hm.unique hroot
    refine ⟨st2.dev, ?_, ?_⟩
    · simp only [mkfs_main, Option.bind_eq_bind, Option.bind_eq_some_iff]
      exact ⟨dev1, h1, dev2, h2, dev3, h3, dev4, h4, st1, hrun, st2, hsync, rfl⟩
    · rw [hdev]
      have himg := hblank.image hsize hm hrec hothers
      rw [hblk] at himg ⊢
      exact himg
  · refine absurd ?_ (hno _ hroot)
    rw [hblk]
    exact hok

end Image

end GasFs
