/-
# A device for every state

An unmount and a mount (`Again`) is no empty notion: `exists_again` finds, for every file system whose
numbers fit the fields of the device (`Fs.Storable`), a device on which all of it is written, a mount of
that device, and the inodes looked up again.

What has to be shown is that no two parts of the state want the same block.  The maps and the inode list
lie in front of the data zone; the page of a file is in the block mapped there, which is mapped nowhere
else and is no indirect block, by the soundness of the trees; every other block holds its buffer
(`exists_block`).

A megabyte in which a file was created is such a file system (`megabyte_again`).

The superblock is not built but taken over: a state that came from a mount has one.  The inodes are
written back first, and after that the state and the device have to agree in blocks.

A device is a function from block numbers to contents, so it is enough to find the contents of one
block at a time.  `BlockHolds` lists what a block has to hold, with a condition in front of each
item that says when the block is of that kind.
-/
import GasFs.Remount.Restored

namespace GasFs

open Bytes PtrTree SlotTable Namespace RecordTable

/-! ## 1. What can be written

The kinds of blocks exclude each other: maps by their place, data blocks by being in the zone and
mapped, indirect blocks by being in the zone and not mapped as data.  That a block is mapped at one
place only is what the books say. -/

/-- Superblock and buffers are those of a device, the values of the inodes fit their records, no
inode was removed, and files have zeros in their holes.  The conditions are those that `Again` asks
of the state, and those that a device can meet. -/
structure Fs.Storable (d : Fs Nat) : Prop where
  books : d.Books
  reads : ∀ n, d.vol.env.bread n = true
  super : ∃ block, gas_super_block_fill (super_block_of block) = d.vol.sbi
  magic : d.vol.sbi.s_magic = MAGIC_NUMBER
  maps : 0 < d.vol.sbi.s_bam_blocks ∧ 0 < d.vol.sbi.s_iam_blocks ∧ 0 < d.vol.sbi.s_inode_blocks
  start : d.vol.sbi.s_bam_blocks + d.vol.sbi.s_iam_blocks < d.vol.sbi.s_inode_list_start
  words : ∀ b w, d.vol.words b w < 4294967296
  fits : ∀ k i, d.inodes k = some i → i.FitsDisk
  pointers : ∀ k i j, d.inodes k = some i → i.blkaddr j < 4294967296
  live : ∀ k i, d.inodes k = some i → i.dead = false
  root : d.InCore GAS_ROOT_INO
  holes : ∀ k i n a, d.inodes k = some i → has_blocks i.i_mode = true → a < 4096 →
    4096 * n + a < i.i_size → d.mapped k n = none → i.pages n a = 0

section Blocks

variable {dev : DevCodec} {d : Fs Nat} {k : Nat} {i : Inode}

/-- Any bits are those of some block. -/
theorem exists_bits (f : Nat → Bool) : ∃ block : Mem, ∀ k, map_bit block k = f k := by
  refine ⟨fun a => ⟨(BitVec.ofBoolListLE ((List.range 8).map fun j => f (8 * a + j))).cast (by simp)⟩,
    fun k => ?_⟩
  have hk : k % 8 < 8 := Nat.mod_lt k (by decide)
  rw [map_bit, BitVec.getLsbD_cast, BitVec.getLsbD_ofBoolListLE, List.getD_eq_getElem _ _ (by simpa using hk),
    List.getElem_map, List.getElem_range, Nat.div_add_mod]

/-- And any words that fit. -/
theorem le32_ofWords {w : Nat → Nat} (h : ∀ k, w k < 4294967296) (k : Nat) :
    le32 (ofWords w) (4 * k) = w k := by
  have hk := h k
  have hword : ∀ j < 4, ofWords w (4 * k + j) = UInt8.ofNat (w k / 256 ^ j) := by
    intro j hj
    have hdiv : (4 * k + j) / 4 = k := by omega
    have hmod : (4 * k + j) % 4 = j := by omega
    rw [ofWords, hdiv, hmod]
  have h0 : ofWords w (4 * k) = UInt8.ofNat (w k / 256 ^ 0) := hword 0 (by decide)
  simp only [le32, h0, hword 1 (by decide), hword 2 (by decide), hword 3 (by decide), UInt8.toNat_ofNat']
  omega

/-- A block is mapped at one place. -/
theorem Fs.Books.mapped_once (h : d.Books) {k k' n n' b : Nat} (hm : d.mapped k n = some b)
    (hm' : d.mapped k' n' = some b) : k = k' ∧ n = n' := by
  obtain ⟨hl, hs, hne⟩ := h.mapped_path hm
  obtain ⟨hl', hs', -⟩ := h.mapped_path hm'
  obtain ⟨hk, hq⟩ := h.sound.one k k' _ _ hl.1 hl'.1 (by rw [hs]; exact hne) (hs.trans hs'.symm)
  exact ⟨hk, block_to_path_unique h.sound.geometry.toGeometry hl.1.ne_nil hl'.1.ne_nil hq⟩

/-- The blocks of the maps, of the inode list, and of the data zone. -/
theorem Fs.Books.zone_of_mapped (h : d.Books) {n b : Nat} (hm : d.mapped k n = some b) :
    d.vol.sbi.s_data_block_start ≤ b := by
  obtain ⟨hl, hs, hne⟩ := h.mapped_path hm
  rw [← hs] at hne ⊢
  exact (h.sound.zone k _ hl.1 hne).1

/-- What a block of the device has to hold.  Block 0 is not in it: the superblock is read before the
block size is known. -/
structure BlockHolds (d : Fs Nat) (b : Nat) (block : Mem) : Prop where
  bam : ∀ m < d.vol.sbi.s_bam_blocks, b = 1 + m → ∀ bit, map_bit block bit = d.vol.bam m bit
  iam : ∀ m < d.vol.sbi.s_iam_blocks, b = 1 + d.vol.sbi.s_bam_blocks + m →
    ∀ bit, map_bit block bit = d.vol.iam m bit
  words : d.vol.sbi.s_inode_list_start ≤ b → (∀ k n, d.mapped k n ≠ some b) →
    ∀ w, le32 block (4 * w) = d.vol.words b w
  pages : ∀ k i n, d.inodes k = some i → d.mapped k n = some b → block = i.pages n

/-- **No two of these meet in one block.** The three regions in front of the data zone have their
places from the superblock. -/
theorem exists_block (h : d.Books)
    (hstart : d.vol.sbi.s_bam_blocks + d.vol.sbi.s_iam_blocks < d.vol.sbi.s_inode_list_start)
    (hlist : d.vol.sbi.s_inode_list_start ≤ d.vol.sbi.s_data_block_start)
    (hwords : ∀ b w, d.vol.words b w < 4294967296) (b : Nat) : ∃ block, BlockHolds d b block := by
  have hzone : ∀ k n, d.mapped k n = some b → d.vol.sbi.s_data_block_start ≤ b := fun _ _ =>
    h.zone_of_mapped
  by_cases hmap : ∃ k i n, d.inodes k = some i ∧ d.mapped k n = some b
  · -- the page of a file
    obtain ⟨k, i, n, hk, hm⟩ := hmap
    have hz := hzone k n hm
    refine ⟨i.pages n, ⟨fun m hlt he => absurd he (by omega), fun m hlt he => absurd he (by omega),
      fun _ hno => absurd hm (hno k n), fun k' i' n' hk' hm' => ?_⟩⟩
    obtain ⟨rfl, rfl⟩ := h.mapped_once hm hm'
    rw [Option.some.inj (hk.symm.trans hk')]
  have hnone : ∀ k i n, d.inodes k = some i → d.mapped k n ≠ some b := fun k i n hk hm =>
    hmap ⟨k, i, n, hk, hm⟩
  have hpages : ∀ block : Mem, ∀ k i n, d.inodes k = some i → d.mapped k n = some b → block = i.pages n :=
    fun _ k i n hk hm => absurd hm (hnone k i n hk)
  rcases Nat.lt_or_ge b (1 + d.vol.sbi.s_bam_blocks) with hbam | hbam
  · -- block 0 or a block of the block map
    obtain ⟨block, hbits⟩ := exists_bits (d.vol.bam (b - 1))
    refine ⟨block, ⟨fun m hlt he => ?_, fun m hlt he => absurd he (by omega),
      fun hle => absurd hle (by omega), hpages block⟩⟩
    have hm : m = b - 1 := by omega
    rw [hm]
    exact hbits
  rcases Nat.lt_or_ge b (1 + d.vol.sbi.s_bam_blocks + d.vol.sbi.s_iam_blocks) with hiam | hiam
  · -- a block of the inode map
    obtain ⟨block, hbits⟩ := exists_bits (d.vol.iam (b - 1 - d.vol.sbi.s_bam_blocks))
    refine ⟨block, ⟨fun m hlt he => absurd he (by omega), fun m hlt he => ?_,
      fun hle => absurd hle (by omega), hpages block⟩⟩
    have hm : m = b - 1 - d.vol.sbi.s_bam_blocks := by omega
    rw [hm]
    exact hbits
  · -- any other buffer
    exact ⟨ofWords (d.vol.words b), ⟨fun m hlt he => absurd he (by omega),
      fun m hlt he => absurd he (by omega), fun _ _ => le32_ofWords (hwords b), hpages _⟩⟩

/-- A host with this superblock and these blocks. -/
theorem exists_on_device (h : d.Books)
    (hstart : d.vol.sbi.s_bam_blocks + d.vol.sbi.s_iam_blocks < d.vol.sbi.s_inode_list_start)
    (hlist : d.vol.sbi.s_inode_list_start ≤ d.vol.sbi.s_data_block_start)
    (hwords : ∀ b w, d.vol.words b w < 4294967296)
    (hsuper : ∃ block, gas_super_block_fill (super_block_of block) = d.vol.sbi)
    (hholes : ∀ k i n a, d.inodes k = some i → has_blocks i.i_mode = true → a < 4096 →
      4096 * n + a < i.i_size → d.mapped k n = none → i.pages n a = 0) :
    ∃ super blocks, OnDevice d ⟨super, fun _ => blocks, fun s => if s = 4096 then some 12 else none⟩ := by
  obtain ⟨super, hsuper⟩ := hsuper
  choose blocks hblocks using exists_block h hstart hlist hwords
  refine ⟨super, blocks, ⟨hsuper, fun m hm bit _ => (hblocks _).bam m hm rfl bit,
    fun m hm bit _ => (hblocks _).iam m hm rfl bit, fun b hb hno w _ => (hblocks b).words hb hno w,
    fun k i n a hk hblk ha hlt => ?_⟩⟩
  cases hm : d.mapped k n with
  | none => exact hholes k i n a hk hblk ha hlt hm
  | some b => exact (congrFun ((hblocks b).pages k i n hk hm) a).symm

end Blocks

/-! ## 2. A mount of it

A kernel that refuses nothing gets through `gas_fill_super`, and looks the inodes up one after the
other.  Which inodes these are is a finite list, since an inode in core has its number marked. -/

section Mounts

variable {dev : DevCodec} {d : Fs Nat}

/-- The words of a record fit if its pointers do: the other values are cut to their fields. -/
theorem gnode_words_lt {i : Inode} (h : ∀ j, i.blkaddr j < 4294967296) (w : Fin 16) :
    (gnode_of dev i).words w < 4294967296 := by
  have hu : ∀ x, u32 x < 4294967296 := fun x => Nat.mod_lt x (by decide)
  match w with
  | 0 =>
    have h1 := (gnode_of dev i).i_mode.isLt
    have h2 := (gnode_of dev i).i_nlink.isLt
    have hw : (gnode_of dev i).words 0 =
        (gnode_of dev i).i_mode.toNat + (gnode_of dev i).i_nlink.toNat * 65536 := rfl
    omega
  | 1 | 2 | 3 | 4 | 5 | 6 => exact hu _
  | ⟨j + 7, hj⟩ =>
    have hw : (gnode_of dev i).words ⟨j + 7, hj⟩ =
        if S_ISCHR i.i_mode || S_ISBLK i.i_mode then
          if (⟨j, by omega⟩ : Fin 9) = 0 then u32 (dev.new_encode_dev i.i_rdev) else 0
        else i.blkaddr j := rfl
    rw [hw]
    split_ifs
    · exact hu _
    · decide
    · exact h j

/-- The inodes written back leave words that fit. -/
theorem sync_words_lt (ks : List Nat) : ∀ d : Fs Nat, (∀ b w, d.vol.words b w < 4294967296) →
    (∀ k ∈ ks, ∀ j, (d.inode k).blkaddr j < 4294967296) →
    ∀ b w, (sync dev d ks).vol.words b w < 4294967296 := by
  induction ks with
  | nil => exact fun d hwords _ => hwords
  | cons k ks ih =>
    intro d hwords hptr
    refine ih (SysOp.run dev d (.write_inode k)) (fun b w => ?_)
      fun j hj => hptr j (List.mem_cons_of_mem k hj)
    have hrec := hptr k List.mem_cons_self
    dsimp only [SysOp.run]
    unfold gas_update_inode gas_get_inode sb_bread
    cases d.vol.env.bread d.vol.tick with
    | false => exact hwords b w
    | true =>
      dsimp only [blit]
      split_ifs
      · exact gnode_words_lt hrec _
      · exact hwords b w

/-- **A calm kernel mounts it.** -/
theorem exists_mount (dev : DevCodec) {sbi : SbInfo} {super : Mem} {blocks : Nat → Mem}
    (hsuper : gas_super_block_fill (super_block_of super) = sbi) (hmagic : sbi.s_magic = MAGIC_NUMBER)
    (hsize : sbi.s_blocksize = 4096)
    (hmaps : 0 < sbi.s_bam_blocks ∧ 0 < sbi.s_iam_blocks ∧ 0 < sbi.s_inode_blocks) :
    ∃ v root, (gas_fill_super dev ⟨super, fun _ => blocks, fun s => if s = 4096 then some 12 else none⟩
      calm_env).result = .ok (v, root) ∧ v.env = calm_env := by
  have hr : ¬Refused ⟨super, fun _ => blocks, fun s => if s = 4096 then some 12 else none⟩ calm_env := by
    have h1 : (super_block_of super).s_magic = sbi.s_magic := congrArg SbInfo.s_magic hsuper
    have h2 : (super_block_of super).s_blocksize = sbi.s_blocksize := congrArg SbInfo.s_blocksize hsuper
    have h3 : (super_block_of super).s_bam_blocks = sbi.s_bam_blocks := congrArg SbInfo.s_bam_blocks hsuper
    have h4 : (super_block_of super).s_iam_blocks = sbi.s_iam_blocks := congrArg SbInfo.s_iam_blocks hsuper
    have h5 : (super_block_of super).s_inode_blocks = sbi.s_inode_blocks :=
      congrArg SbInfo.s_inode_blocks hsuper
    simp only [Refused, not_or, h1, h2, h3, h4, h5, hmagic, hsize, if_true]
    exact ⟨by decide, by decide, not_not.mpr rfl, by simp, by omega, by omega, by omega⟩
  obtain ⟨v, root, hmount⟩ := (gas_fill_super_started dev hr).served.mpr ⟨fun _ _ => rfl, rfl, rfl, rfl⟩
  obtain ⟨-, bits, hb, hi, -, hroot⟩ := gas_fill_super_ok hmount
  obtain ⟨-, t, rfl⟩ := make_root_read hroot
  exact ⟨_, root, hmount, rfl⟩

/-- **Any inodes are looked up in it**, one after the other.  An inode that is cached already is
found, any other is read from its record. -/
theorem exists_reopened (dev : DevCodec) {v : Vol} {root : Inode} (hcalm : v.env = calm_env) (ks : List Nat) :
    ∃ d', Reopened dev v root d' ∧ d'.vol.env = calm_env ∧ ∀ k, d'.InCore k ↔ k = GAS_ROOT_INO ∨ k ∈ ks := by
  induction ks with
  | nil =>
    refine ⟨mounted_fs v root, .mount, hcalm, fun k => ⟨fun hk => ?_, fun hk => ?_⟩⟩
    · exact Or.inl (root_fs_eq_some hk.choose_spec).1
    · rw [hk.resolve_right (List.not_mem_nil)]
      exact ⟨_, root_fs_root⟩
  | cons j ks ih =>
    obtain ⟨d', hre, henv, hin⟩ := ih
    cases hj : d'.inodes j with
    | some i =>
      -- it is cached already
      refine ⟨d', hre, henv, fun k => (hin k).trans ⟨fun hk => ?_, fun hk => ?_⟩⟩
      · exact hk.imp_right (List.mem_cons_of_mem j)
      · rcases hk with hroot | hmem
        · exact Or.inl hroot
        · rcases List.mem_cons.mp hmem with rfl | hmem
          · exact (hin k).mp ⟨i, hj⟩
          · exact Or.inr hmem
    | none =>
      have hmem : d'.vol.env.mem d'.vol.tick = true := by rw [henv]; rfl
      have hread : d'.vol.env.bread (d'.vol.tick + 1) = true := by rw [henv]; rfl
      have he : gas_iget dev d'.inodes d'.vol j = (.ok (read_inode dev d'.vol j), _) :=
        Prod.ext (gas_iget_eq dev hj hmem hread) rfl
      obtain ⟨-, hvol⟩ := gas_iget_ok hj he
      refine ⟨_, .iget hre hj he, by rw [hvol]; exact henv, fun k => ?_⟩
      rw [List.mem_cons, or_left_comm, ← hin k]
      rcases eq_or_ne k j with rfl | hne
      · exact iff_of_true ⟨_, Function.update_self _ _ _⟩ (Or.inl rfl)
      · refine Iff.trans ?_ (or_iff_right hne).symm
        rw [Fs.InCore, Fs.InCore]
        dsimp only
        rw [Function.update_of_ne hne]

/-- A tree that was in core is so again. -/
theorem Again.hasTree {ks : List Nat} {host : Host} {d' : Fs Nat} (h : Again dev d ks host d')
    (hb : d.Books) {k : Nat} (hk : d.HasTree k) : d'.HasTree k := by
  obtain ⟨i, hi, hblk⟩ := hk
  obtain ⟨i', hi'⟩ := (h.core k).mpr ⟨i, hi⟩
  obtain ⟨hsync, hclean⟩ := h.synced hb
  have hback := (h.restored hb).readsBack hsync.kept.books h.device hclean
    (by rw [hsync.inodes]; exact hi) (h.fits k i hi) hi'
  have hmode : i'.i_mode = i.i_mode := hback.i_mode
  exact ⟨i', hi', by rw [hmode]; exact hblk⟩

/-- There are only so many inodes in core. -/
theorem Fs.Books.exists_core (h : d.Books) : ∃ ks : List Nat, ∀ k, k ∈ ks ↔ d.InCore k := by
  classical
  refine ⟨(List.range d.vol.inoLimit).filter fun k => d.InCore k, fun k => ?_⟩
  rw [List.mem_filter, List.mem_range, decide_eq_true_eq]
  refine and_iff_right_of_imp fun ⟨i, hi⟩ => ?_
  have hlt := (h.numbered.ino k i hi).2.2
  rw [(h.numbers.ino k i hi).1] at hlt
  exact hlt

/-- **Every such file system can be unmounted and mounted again.** No kernel and no device is given;
they are found. -/
theorem exists_again (dev : DevCodec) (h : d.Storable) : ∃ ks host d', Again dev d ks host d' := by
  -- the inodes are written back, a device is found for the result, and a calm kernel mounts it
  obtain ⟨ks, hks⟩ := h.books.exists_core
  have hg := h.books.sound.geometry.toGeometry
  obtain ⟨hsync, -⟩ := @sync_clean dev ks d h.books h.reads fun k hk => (hks k).mp hk
  have hsbi := hsync.kept.vol.sbi
  have hmapped : ∀ k n, (sync dev d ks).mapped k n = d.mapped k n := fun k =>
    Fs.mapped_congr h.books.sound.geometry hsync.kept.books.numbers.geometry hsbi (hsync.slot k)
  have hlist : (sync dev d ks).vol.sbi.s_inode_list_start ≤
      (sync dev d ks).vol.sbi.s_data_block_start := by
    obtain ⟨i, hi⟩ := h.root
    have hnum := hsync.kept.books.numbered.list _
      (hsync.kept.books.numbered.ino _ i (by rw [hsync.inodes]; exact hi)).2.1
    exact (Nat.le_add_right _ _).trans hnum.le
  obtain ⟨super, blocks, hdevice⟩ := exists_on_device hsync.kept.books (by rw [hsbi]; exact h.start) hlist
    (sync_words_lt ks d h.words fun k hk j => by
      obtain ⟨i, hi⟩ := (hks k).mp hk
      rw [Fs.inode_of hi]
      exact h.pointers k i j hi)
    (by rw [hsbi]; exact h.super) fun k i n a hk hblk ha hlt hm =>
      h.holes k i n a (hsync.inodes ▸ hk) hblk ha hlt (hmapped k n ▸ hm)
  obtain ⟨v, root, hmount, hcalm⟩ := @exists_mount dev d.vol.sbi super blocks
    (hdevice.super.trans hsbi) h.magic hg.blocksize h.maps
  obtain ⟨d', hopen, -, hcore⟩ := @exists_reopened dev v root hcalm ks
  refine ⟨ks, _, d', ⟨h.reads, hks, h.live, h.fits, hdevice, (plain_host_holds (fun _ => super)).sizes,
    ⟨calm_env, v, root, hmount, hopen⟩, fun k => (hcore k).trans ⟨fun hk => ?_, fun hk => ?_⟩⟩⟩
  · rcases hk with rfl | hk
    · exact h.root
    · exact (hks k).mp hk
  · exact Or.inr ((hks k).mpr hk)

end Mounts

/-! ## 3. With a file in it

The state to be mounted again is one with more than the root in it.  A file is created in a new
megabyte: the entry goes into the root's first page, which is mapped, so the call takes no block,
and the new inode points to nothing. -/

section Created

variable {d : Fs Nat} {dir : Nat} {name : List UInt8} {mode : BitVec 16}

/-- Where a new entry goes and its page is mapped, nothing of the volume is needed for it, and the
directory keeps its pointers. -/
theorem add_link_mapped {c : Ctx} (hd : DirOk c.inode) (hn : IsName name) (ino : Nat)
    (hio : ∀ n, c.v.env.bread n = true) (hpg : ∀ n, c.v.env.pgread n = true)
    (habs : locate (c.inode.slots.take (hole c.inode.slots)) name = none)
    (hhole : hole c.inode.slots < 15) (hmap : c.val (block_to_path c.v 0) ≠ 0) :
    ∃ t s pages, (gas_add_link c name ino).2 = none ∧
      (gas_add_link c name ino).1.v = { c.v with tick := t } ∧
      (gas_add_link c name ino).1.inode = { c.inode with
        pages := pages
        i_size := max c.inode.i_size (260 * hole c.inode.slots + 260)
        i_mtime := c.v.env.now s
        i_ctime := c.v.env.now s } ∧
      ∀ n a, 0 < n → pages n a = c.inode.pages n a ∨ pages n a = 0 := by
  obtain ⟨c1, hc, he⟩ := gas_add_link_got_it hd hn ino hpg habs
  have hpages := hc.pages
  obtain ⟨t1, hv1⟩ := hc.vol
  obtain ⟨p1, hi1⟩ := hc.inode
  generalize hole c.inode.slots = t at he hhole ⊢
  have hpos : slotPos t = (0, 260 * t) := by
    rw [slotPos, Nat.div_eq_of_lt hhole, Nat.mod_eq_of_lt hhole]
  rw [he, hpos]
  -- the block is mapped, so it is looked up and no more
  have hzero : (PAGE_CACHE_SIZE * 0 + 260 * t) / PAGE_CACHE_SIZE = 0 := by
    rw [Nat.mul_zero, Nat.zero_add]
    have hpage : 260 * t < 4096 := by omega
    exact Nat.div_eq_of_lt hpage
  have hmap1 : c1.val (block_to_path c1.v 0) ≠ 0 := by
    have hsame : c1.val (block_to_path c1.v 0) = c.val (block_to_path c.v 0) := by
      rw [Ctx.val, hv1, hi1]
      rfl
    rw [hsame]
    exact hmap
  obtain ⟨c2, ⟨t2, rfl⟩, hget⟩ := @gas_get_block_mapped c1 0 (fun n => by rw [hv1]; exact hio n) hmap1 true
  have hprep : gas_dir_prepare_chunk c1 (PAGE_CACHE_SIZE * 0 + 260 * t) sizeof_gas_dir_entry =
      ({ c1 with v := { c1.v with tick := t2 } }, none) := by
    unfold gas_dir_prepare_chunk __block_write_begin
    rw [hzero, hget]
    rfl
  unfold got_it
  dsimp only
  rw [hprep]
  have hend : PAGE_CACHE_SIZE * 0 + 260 * t + sizeof_gas_dir_entry = 260 * t + 260 := by
    rw [Nat.mul_zero, Nat.zero_add]
  dsimp only
  rw [gas_dir_commit_chunk_eq, hend]
  refine ⟨t2, t2, Function.update p1 0 (write_entry (p1 0) (260 * t) name ino), rfl, ?_, ?_, fun n a hn => ?_⟩
  · rw [touch, hv1]
  · rw [touch, hv1, hi1]
    rfl
  · rw [Function.update_of_ne hn.ne']
    have hp := hpages n a
    rw [hi1] at hp
    exact hp.imp_right fun h => h.2.2.2

/-- A new inode fits its record, and points to nothing. -/
theorem gas_new_inode_fits {v v' : Vol} {parent i : Inode} {err : Option Errno} (henv : v.env = calm_env)
    (hparent : parent.FitsDisk) (h : gas_new_inode v parent mode = (err, some i, v')) :
    (gas_set_inode i 0).FitsDisk ∧ (gas_set_inode i 0).i_size = 0 ∧ (gas_set_inode i 0).dead = false ∧
      (∀ j, (gas_set_inode i 0).blkaddr j = 0) ∧ (gas_set_inode i 0).i_nlink = 1 ∧
      (gas_set_inode i 0).i_ino = i.i_ino ∧
      ∃ iam hint, v' = { v with iam := iam, s_iam_last := hint, tick := v.tick + 1 } := by
  obtain ⟨op, hop⟩ := gas_set_inode_eq i 0
  obtain ⟨⟨iam, hint, hv⟩, hptr⟩ := gas_new_inode_result v parent mode
  rw [h] at hv hptr
  have hptr := hptr i rfl
  have hnow : v.env.fsuid = 0 ∧ v.env.fsgid = 0 ∧ ∀ n, v.env.now n = 0 := by
    rw [henv]
    exact ⟨rfl, rfl, fun _ => rfl⟩
  unfold gas_new_inode at h
  dsimp only at h
  split_ifs at h
  · simp at h
  split at h
  · simp at h
  · have hi := (Option.some.inj (congrArg (fun r => r.2.1) h)).symm
    have hvals : i.i_nlink = 1 ∧ i.i_uid = 0 ∧ (i.i_gid = parent.i_gid ∨ i.i_gid = 0) ∧ i.i_size = 0 ∧
        i.i_atime = 0 ∧ i.i_mtime = 0 ∧ i.i_ctime = 0 ∧ i.i_rdev = 0 ∧ i.dead = false := by
      rw [hi]
      unfold inode_init_owner
      refine ⟨rfl, hnow.1, ?_, rfl, hnow.2.2 _, hnow.2.2 _, hnow.2.2 _, rfl, rfl⟩
      dsimp only
      split_ifs
      · exact Or.inl rfl
      · exact Or.inr hnow.2.1
    obtain ⟨hl, huid, hgid, hsize, ha, hm, hc, hr, hdead⟩ := hvals
    rw [hop]
    refine ⟨⟨?_, ?_, ?_, ?_, ?_, ?_, ?_, ?_⟩, hsize, hdead, fun j => congrFun hptr j, hl, rfl, iam, hint, hv⟩
    · rw [hl]; decide
    · rw [huid]; decide
    · rcases hgid with hg | hg
      · rw [hg]; exact hparent.i_gid
      · rw [hg]; decide
    · rw [hsize]; decide
    · rw [ha]; decide
    · rw [hm]; decide
    · rw [hc]; decide
    · dsimp only
      rw [hr, ite_self]
      decide

/-- What is asked of one inode in core: its values fit its record, it was not removed, and it has zeros
in its holes. -/
structure Fs.InodeStorable (d : Fs Nat) (k : Nat) (i : Inode) : Prop where
  fits : i.FitsDisk
  pointers : ∀ j, i.blkaddr j < 4294967296
  live : i.dead = false
  holes : has_blocks i.i_mode = true → ∀ n a, a < 4096 → 4096 * n + a < i.i_size →
    d.mapped k n = none → i.pages n a = 0

theorem Fs.Storable.inode (h : d.Storable) {k : Nat} {i : Inode} (hk : d.inodes k = some i) :
    d.InodeStorable k i :=
  ⟨h.fits k i hk, fun j => h.pointers k i j hk, h.live k i hk, fun hblk n a => h.holes k i n a hk hblk⟩

/-- The superblock and the buffers stay, so only the inodes have to be looked at. -/
theorem Fs.Storable.next {d' : Fs Nat} (h : d.Storable) (hbooks : d'.Books)
    (hsbi : d'.vol.sbi = d.vol.sbi) (henv : d'.vol.env = d.vol.env) (hwords : d'.vol.words = d.vol.words)
    (hroot : d'.InCore GAS_ROOT_INO) (hin : ∀ k i, d'.inodes k = some i → d'.InodeStorable k i) :
    d'.Storable where
  books := hbooks
  reads := by rw [henv]; exact h.reads
  super := by rw [hsbi]; exact h.super
  magic := by rw [hsbi]; exact h.magic
  maps := by rw [hsbi]; exact h.maps
  start := by rw [hsbi]; exact h.start
  words := by rw [hwords]; exact h.words
  fits k i hk := (hin k i hk).fits
  pointers k i j hk := (hin k i hk).pointers j
  live k i hk := (hin k i hk).live
  root := hroot
  holes k i n a hk hblk := (hin k i hk).holes hblk n a

/-- An inode with the pointers and the type it had maps the blocks it mapped. -/
theorem Fs.Books.mapped_same {d' : Fs Nat} (h : d.Books) (h' : d'.Books) {k : Nat} {i i' : Inode}
    (hk : d.inodes k = some i) (hk' : d'.inodes k = some i') (hmode : i'.i_mode = i.i_mode)
    (hptr : i'.blkaddr = i.blkaddr) (hsbi : d'.vol.sbi = d.vol.sbi)
    (hwords : d'.vol.words = d.vol.words) (n : Nat) : d'.mapped k n = d.mapped k n := by
  refine Fs.mapped_congr h.sound.geometry h'.numbers.geometry hsbi (fun q _ => ?_) n
  rw [Fs.slot, Fs.slot, hk, hk']
  dsimp only
  rw [hmode, Ctx.val, Ctx.val, hptr, hwords]

/-- The inodes in core behind an entry for a new one: the directory, the new one, and those that were
there. -/
theorem Fs.inodes_entered (d : Fs Nat) {i₀ : Inode} {v : Vol} {c : Ctx} {k : Nat} {i : Inode}
    (hk : ((Fs.hash { d with vol := v } i₀).set dir c).inodes k = some i) :
    (k = dir ∧ i = c.inode) ∨ (k = i₀.i_ino ∧ i = i₀) ∨ (k ≠ dir ∧ d.inodes k = some i) := by
  rcases eq_or_ne k dir with rfl | hkd
  · have hset : ((Fs.hash { d with vol := v } i₀).set k c).inodes k = some c.inode :=
      Function.update_self _ _ _
    exact Or.inl ⟨rfl, (Option.some.inj (hset.symm.trans hk)).symm⟩
  rw [Fs.set_inodes_of_ne hkd] at hk
  rcases eq_or_ne k i₀.i_ino with rfl | hkx
  · have hnew : (Fs.hash { d with vol := v } i₀).inodes i₀.i_ino = some i₀ := Function.update_self _ _ _
    exact Or.inr (Or.inl ⟨rfl, (Option.some.inj (hnew.symm.trans hk)).symm⟩)
  · have hold : (Fs.hash { d with vol := v } i₀).inodes k = d.inodes k := Function.update_of_ne hkx _ _
    exact Or.inr (Or.inr ⟨hkd, hold ▸ hk⟩)

/-- What was in core is in core behind such an entry. -/
theorem Fs.InCore.entered {i₀ : Inode} {v : Vol} {c : Ctx} {k : Nat} (hk : d.InCore k) :
    ((Fs.hash { d with vol := v } i₀).set dir c).InCore k := by
  obtain ⟨i, hi⟩ := hk
  rcases eq_or_ne k dir with rfl | hkd
  · exact ⟨_, Function.update_self _ _ _⟩
  rcases eq_or_ne k i₀.i_ino with rfl | hkx
  · exact ⟨i₀, (Fs.set_inodes_of_ne hkd).trans (Function.update_self _ _ _)⟩
  · exact ⟨i, (Fs.set_inodes_of_ne hkd).trans ((Function.update_of_ne hkx _ _).trans hi)⟩

/-- **A new inode without blocks, entered into a directory** whose first page is mapped: the directory
grows within that page, the new inode has no byte, and all others are as they were. -/
theorem Fs.Storable.enter (h : d.Storable) (hn : IsName name) (hdir : d.isDir dir = true)
    (hok : DirOk (d.inode dir)) (habs : d.entry (dir, name) = none)
    (hhole : hole (d.inode dir).slots < 15) (hmap : d.mapped dir 0 ≠ none)
    (henv : d.vol.env = calm_env) {i₀ : Inode} (hne : i₀.i_ino ≠ dir) (hfit : i₀.FitsDisk)
    (hsize : i₀.i_size = 0) (hlive : i₀.dead = false) (hptr : ∀ j, i₀.blkaddr j = 0)
    (iam : Nat → Nat → Bool) (hint : Fin d.vol.sbi.s_iam_blocks) (t : Nat) :
    let d₁ := Fs.hash { d with vol := { d.vol with iam := iam, s_iam_last := hint, tick := t } } i₀
    let r := gas_add_link (d₁.ctx dir) name i₀.i_ino
    r.2 = none ∧ ((d₁.set dir r.1).Books → (d₁.set dir r.1).Storable) := by
  obtain ⟨p, hp, hpdir⟩ := Fs.hasTree_of_isDir hdir
  obtain rfl : d.inode dir = p := Fs.inode_of hp
  have hmap0 : Ctx.val ⟨d.vol, d.inode dir, 0⟩ (block_to_path d.vol (0 : Nat)) ≠ 0 := by
    intro h0
    rw [← d.slot_of_blocks hp hpdir] at h0
    exact hmap (if_pos h0)
  have hctx : (Fs.hash { d with vol := { d.vol with
      iam := iam, s_iam_last := hint, tick := t } } i₀).ctx dir =
      ⟨{ d.vol with iam := iam, s_iam_last := hint, tick := t }, d.inode dir, 0⟩ := by
    rw [Fs.ctx]
    simp [Fs.hash, Fs.inode, hne.symm]
  intro d₁ r
  have hr : r = gas_add_link ⟨{ d.vol with iam := iam, s_iam_last := hint, tick := t }, d.inode dir, 0⟩
      name i₀.i_ino := congrArg (gas_add_link · name i₀.i_ino) hctx
  obtain ⟨t', s, pages, hnone, hv, hi, hpages⟩ := add_link_mapped
    (c := ⟨{ d.vol with iam := iam, s_iam_last := hint, tick := t }, d.inode dir, 0⟩) hok hn i₀.i_ino
    h.reads (fun n => by rw [henv]; rfl) (locate_hole hdir habs) hhole hmap0
  rw [← hr] at hnone hv hi
  refine ⟨hnone, fun hbooks => ?_⟩
  have hvol : (d₁.set dir r.1).vol = { d.vol with iam := iam, s_iam_last := hint, tick := t' } := hv
  have hsbi : (d₁.set dir r.1).vol.sbi = d.vol.sbi := by rw [hvol]
  have hwords : (d₁.set dir r.1).vol.words = d.vol.words := by rw [hvol]
  refine h.next hbooks hsbi (by rw [hvol]) hwords h.root.entered fun k i hk => ?_
  rcases d.inodes_entered hk with ⟨rfl, rfl⟩ | ⟨-, rfl⟩ | ⟨-, hold⟩
  · -- the directory: the entry is on its first page, the pages behind are as they were
    have hmapped := h.books.mapped_same hbooks hp hk (by rw [hi]) (by rw [hi]) hsbi hwords
    have hdfit := (h.inode hp).fits
    have hnow : ∀ s, d.vol.env.now s < 4294967296 := by
      rw [henv]
      exact fun _ => Nat.zero_lt_succ _
    have hend : 260 * hole (d.inode k).slots + 260 ≤ 4096 := by omega
    rw [hi]
    refine ⟨{ hdfit with
      i_size := max_lt hdfit.i_size (lt_of_le_of_lt hend (by decide))
      i_mtime := hnow s
      i_ctime := hnow s }, (h.inode hp).pointers, (h.inode hp).live, fun hblk n a ha hlt hm => ?_⟩
    rw [hmapped] at hm
    have hn0 : 0 < n := Nat.pos_of_ne_zero fun h0 => hmap (h0 ▸ hm)
    have hlt' : 4096 * n + a < max (d.inode k).i_size (260 * hole (d.inode k).slots + 260) := hlt
    have hzero : (d.inode k).pages n a = 0 :=
      (h.inode hp).holes hpdir n a ha ((lt_max_iff.mp hlt').resolve_right (by omega)) hm
    rcases hpages n a hn0 with hsame | hclear
    · exact hsame.trans hzero
    · exact hclear
  · -- the new inode
    exact ⟨hfit, fun j => by rw [hptr]; decide, hlive, fun _ n a _ hlt => by
      rw [hsize] at hlt
      exact absurd hlt (Nat.not_lt_zero _)⟩
  · -- an inode that was there
    have hmapped := h.books.mapped_same hbooks hold hk rfl rfl hsbi hwords
    have hin := h.inode hold
    exact { hin with holes := fun hblk n a ha hlt hm => hin.holes hblk n a ha hlt ((hmapped n).symm.trans hm) }

/-- **A file created there changes nothing that would not fit.** -/
theorem Fs.Storable.create (h : d.Storable) (hn : IsName name) (hdir : d.isDir dir = true)
    (hok : DirOk (d.inode dir)) (habs : d.entry (dir, name) = none)
    (hhole : hole (d.inode dir).slots < 15) (hmap : d.mapped dir 0 ≠ none)
    (henv : d.vol.env = calm_env) (hfree : ¬d.vol.IamFull) (mode : BitVec 16) :
    (gas_create d dir name mode).2 = none ∧ (gas_create d dir name mode).1.Storable := by
  obtain ⟨p, hp, hpdir⟩ := Fs.hasTree_of_isDir hdir
  have hable : SysOp.Able d (.name (.create dir name mode)) := ⟨p, hp, hpdir⟩
  have hbooks := (h.books.sys_step linux_dev hable).1
  have hrun : SysOp.run linux_dev d (.name (.create dir name mode)) = (gas_create d dir name mode).1 := by
    rw [SysOp.run]
    exact ite_self _
  rw [hrun] at hbooks
  unfold gas_create new_nondir at hbooks ⊢
  rcases gas_new_inode_cases h.books.numbers.geometry h.books.numbers.limit (d.inode dir) mode with
    ⟨ino, hint, he, -, hclear, -⟩ | ⟨e, -, hno⟩
  · obtain ⟨hfit, hsize, hlive, hptr, hlink, hino, -⟩ :=
      gas_new_inode_fits henv (h.fits dir _ (Fs.inode_of hp ▸ hp)) he
    rw [he] at hbooks ⊢
    dsimp only at hino hlink hfit hsize hlive hptr hbooks ⊢
    generalize gas_set_inode _ 0 = i₀ at *
    have hne : i₀.i_ino ≠ dir := by
      rintro heq
      rw [← hino, heq, (h.books.numbers.ino dir p hp).2.2.2] at hclear
      exact Bool.false_ne_true hclear.symm
    obtain ⟨hnone, hstore⟩ := h.enter hn hdir hok habs hhole hmap henv hne hfit hsize hlive hptr
      (write_bit d.vol.iam (ino / 32768) (ino % 32768) true) hint (d.vol.tick + 1)
    subst hino
    have hin : (Fs.hash { d with vol := { d.vol with
        iam := write_bit d.vol.iam (i₀.i_ino / 32768) (i₀.i_ino % 32768) true
        s_iam_last := hint
        tick := d.vol.tick + 1 } } i₀).inode i₀.i_ino = i₀ :=
      Fs.inode_of (Function.update_self _ _ _)
    rw [add_nondir_eq hne (by rw [hin, hlink]; decide), hin] at hbooks ⊢
    exact ⟨hnone, hstore hbooks⟩
  · -- neither is the case
    rcases hno with hmem | hfull
    · rw [henv] at hmem
      exact absurd hmem (by simp [calm_env])
    · exact absurd hfull hfree

/-- The root's inode, as it comes from the record that `mkfs.gas` wrote. -/
theorem new_root_fits (who : Caller) (n rdev : Nat) :
    let root := gas_set_inode (gas_inode_fill (iget_locked_new GAS_ROOT_INO) (root_record who n 520)) rdev
    root.FitsDisk ∧ (∀ j, root.blkaddr j = if j = 0 then n else 0) ∧ root.i_size = 520 ∧
      root.dead = false ∧ S_ISDIR root.i_mode = true := by
  obtain ⟨op, hop⟩ := gas_set_inode_eq
    (gas_inode_fill (iget_locked_new GAS_ROOT_INO) (root_record who n 520)) rdev
  have hdir : S_ISDIR rootdir_mode = true := by decide
  have hdev : (S_ISCHR rootdir_mode || S_ISBLK rootdir_mode) = false :=
    not_device_of_has_blocks (has_blocks_of_dir hdir)
  intro root
  have hroot : root = _ := hop
  rw [hroot]
  have hlink : ((2 : BitVec 16).setWidth 32).toNat < 65536 := by decide
  have hsize : 520 < 4294967296 := by decide
  refine ⟨⟨hlink, u32_lt _, u32_lt _, hsize, u32_lt _, u32_lt _, u32_lt _, ?_⟩, fun j => ?_, rfl, rfl, hdir⟩
  · have hmode : (gas_inode_fill (iget_locked_new GAS_ROOT_INO) (root_record who n 520)).i_mode =
        rootdir_mode := rfl
    dsimp only
    rw [hmode, hdev]
    exact Nat.zero_lt_succ _
  · have hfill : (gas_inode_fill (iget_locked_new GAS_ROOT_INO) (root_record who n 520)).blkaddr j =
        if hj : j < 9 then Function.update (fun _ => 0) blkaddr_0 n ⟨j, hj⟩ else 0 := rfl
    dsimp only
    rw [hfill]
    split_ifs with hj h0
    · subst h0
      exact Function.update_self _ _ _
    · exact Function.update_of_ne (fun he => h0 (congrArg Fin.val he)) _ _
    · exact absurd (by omega) hj
    · rfl

/-- A mounted volume has the superblock of the device, in which none of the three counts is zero. -/
theorem mounted_super {dev : DevCodec} {host : Host} {env : Env} {v : Vol} {root : Inode}
    (hmount : (gas_fill_super dev host env).result = .ok (v, root)) :
    gas_super_block_fill (super_block_of host.super) = v.sbi ∧
      0 < v.sbi.s_bam_blocks ∧ 0 < v.sbi.s_iam_blocks ∧ 0 < v.sbi.s_inode_blocks := by
  obtain ⟨hserved, bits, hb, hi, -, hroot⟩ := gas_fill_super_ok hmount
  obtain ⟨t, rfl⟩ := make_root_ok hroot
  simp only [Refused, not_or] at hserved
  obtain ⟨-, -, -, -, h1, h2, h3⟩ := hserved
  exact ⟨rfl, Nat.pos_of_ne_zero h1, Nat.pos_of_ne_zero h2, Nat.pos_of_ne_zero h3⟩

/-- The first page of the root is in the block that its first pointer names. -/
theorem root_fs_mapped {v : Vol} {i : Inode} {n : Nat} (hg : Geometry v) (hnb : 0 < v.sbi.s_nblocks)
    (hdir : S_ISDIR i.i_mode = true) (hptr : ∀ j < 9, i.blkaddr j = if j = 0 then n else 0)
    (hn : n ≠ 0) : (root_fs v i).mapped GAS_ROOT_INO 0 = some n := by
  have hpath : block_to_path v ((0 : Nat) : Int) = [0] := by
    rw [block_to_path_eq hg, if_neg (Nat.not_le.mpr hnb), if_pos (by decide)]
  have hslot := @root_fs_slot n v i hdir hptr GAS_ROOT_INO [0]
    (isPath_cons.mpr ⟨by decide, by simp, by simp⟩)
  rw [if_pos ⟨rfl, rfl⟩] at hslot
  unfold Fs.mapped
  dsimp only
  rw [root_fs_vol, hpath, hslot, if_neg hn]

/-- **A new file system** is such a one, and the first page of its root is mapped. -/
theorem Fs.Fresh.storable (h : d.Fresh) (hsize : d.vol.sbi.s_nblocks ≤ 1073741824)
    (hio : ∀ n, d.vol.env.bread n = true) : d.Storable ∧ d.mapped GAS_ROOT_INO 0 ≠ none := by
  have hbooks := h.books hsize
  obtain ⟨who, size, dev₀, img, dev, host, env, v, root, hmk, hhost, hmount, rfl⟩ := h
  have hlarge := mounted_large hmk hhost hmount
  obtain ⟨n, hok, himg⟩ := mkfs_image hlarge hmk
  obtain ⟨hb, hi, tick, rdev, hv, hroot⟩ := himg.mounted hok hlarge hhost hmount
  obtain ⟨hbam, hiam, hnb, -, hlist, hdata⟩ :=
    mkfs_sbi_of_fits (fits_of_offset_ok (offset_ok_of_le hok himg.zone))
  obtain ⟨hino, hiampos, hbampos⟩ := ino_blk_pos hlarge
  have hst := (filesys_param_counts size).1
  have hzone := himg.zone
  have hroom := himg.room
  have hblk := (fits_of_offset_ok (offset_ok_of_le hok himg.zone)).blk_cnt
  have hsbi : v.sbi = mkfs_sbi size := by rw [hv]; rfl
  obtain ⟨hsuper, hcounts⟩ := mounted_super hmount
  obtain ⟨hfit, hptr, hsz, hlive, hdir⟩ := new_root_fits who n rdev
  rw [← hroot] at hfit hptr hsz hlive hdir
  -- the root is all that is in core
  have hone : ∀ k i, (mounted_fs v root).inodes k = some i → k = GAS_ROOT_INO ∧
      i = root.paged v.readable := fun k i hk => root_fs_eq_some hk
  have hmapped : (mounted_fs v root).mapped GAS_ROOT_INO 0 = some n :=
    root_fs_mapped (i := root.paged v.readable) hbooks.sound.geometry.toGeometry
      (by rw [hsbi, hnb]; omega) hdir (fun j _ => hptr j) (by omega)
  have hmap : (mounted_fs v root).mapped GAS_ROOT_INO 0 ≠ none := by
    rw [hmapped]
    exact Option.some_ne_none n
  have hmagic : v.sbi.s_magic = MAGIC_NUMBER := by rw [hsbi]; rfl
  have hstart : v.sbi.s_bam_blocks + v.sbi.s_iam_blocks < v.sbi.s_inode_list_start := by
    rw [hsbi, hbam, hiam, hlist, FilesysParam.INODE_LIST_START, FilesysParam.IAM_BLOCK_START,
      BAM_BLOCK_START]
    omega
  have hwords : ∀ b w, v.words b w < 4294967296 := by
    rw [hv]
    exact fun _ _ => le32_lt _ _
  refine ⟨⟨hbooks, hio, ⟨host.super, hsuper⟩, hmagic, hcounts, hstart, hwords, fun k i hk => ?_,
    fun k i j hk => ?_, fun k i hk => ?_, ⟨_, root_fs_root⟩, fun k i m a hk _ ha hlt hm => ?_⟩, hmap⟩
  all_goals obtain ⟨rfl, rfl⟩ := hone k i hk
  · exact { hfit with }
  · have hj : root.blkaddr j = if j = 0 then n else 0 := hptr j
    rw [Inode.paged, hj]
    split_ifs <;> omega
  · exact hlive
  · have hlt' : 4096 * m + a < root.i_size := hlt
    obtain rfl : m = 0 := by omega
    exact absurd hm hmap

/-- **A megabyte with a file in it** is unmounted and mounted again. -/
theorem megabyte_again : ∃ d₀ d d' : Fs Nat, ∃ ks host, d₀.Fresh ∧ d₀.vol.sbi = mkfs_sbi 1048576 ∧
    gas_create d₀ GAS_ROOT_INO [97] S_IFREG = (d, none) ∧ d.Consistent ∧ d.Books ∧
    (∃ k, d.entry (GAS_ROOT_INO, [97]) = some k ∧ k ≠ GAS_ROOT_INO) ∧
    d₀.HasTree GAS_ROOT_INO ∧ d'.HasTree GAS_ROOT_INO ∧ Again linux_dev d ks host d' := by
  obtain ⟨img, v, root, -, -, hfresh, henv, hsbi, hroom, hspare⟩ := mounted_megabyte
  obtain ⟨i, hone, -, -, -, hok, hslots, -, hdir⟩ := hfresh.only
  have hreads : ∀ n, v.env.bread n = true := by
    rw [henv]
    exact fun _ => rfl
  obtain ⟨hstore, hmap⟩ := hfresh.storable hroom.geometry.nblocks_le hreads
  have hlive := (hdir GAS_ROOT_INO).mpr rfl
  have hslots' : ((mounted_fs v root).inode GAS_ROOT_INO).slots = _ := (Fs.inode_of hone).symm ▸ hslots
  have habs : (mounted_fs v root).entry (GAS_ROOT_INO, [97]) = none := by
    rw [Fs.entry_of_isDir hlive, hslots']
    decide
  have hname : IsName [97] := ⟨by decide, by decide, by decide⟩
  obtain ⟨hnone, hstore'⟩ := hstore.create hname hlive ((Fs.inode_of hone).symm ▸ hok) habs
    (by rw [hslots']; decide) hmap henv (hspare.not_full hstore.books.numbers.geometry) S_IFREG
  obtain ⟨d, hcall⟩ : ∃ d, gas_create (mounted_fs v root) GAS_ROOT_INO [97] S_IFREG = (d, none) :=
    ⟨_, Prod.ext rfl hnone⟩
  have hdid := hfresh.consistent.new_nondir (by decide) hlive hname habs hcall
  rw [hcall] at hstore'
  obtain ⟨hentry, hroot⟩ : (∃ k, d.space.entry (GAS_ROOT_INO, [97]) = some k ∧ k ≠ GAS_ROOT_INO) ∧
      GAS_ROOT_INO ∈ d.space.dirs := by
    have hdoes := hdid.does
    generalize d.space = s at hdoes
    cases hdoes with
    | @create _ x _ hdirs _ hx =>
      refine ⟨⟨x, by simp [Space.bound], ?_⟩, hdirs⟩
      rintro rfl
      simp [Fs.space, hone] at hx
  obtain ⟨ks, host, d', hagain⟩ := exists_again linux_dev hstore'
  exact ⟨_, d, d', ks, host, hfresh, hsbi, hcall, hdid.consistent, hstore'.books, hentry,
    Fs.hasTree_of_isDir hlive, hagain.hasTree hstore'.books (Fs.hasTree_of_isDir hroot), hagain⟩

end Created

end GasFs
