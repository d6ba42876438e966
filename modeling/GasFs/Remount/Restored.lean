/-
# Written to the device and read back

What a mounted file system keeps in memory goes to the device and comes back: `gas_update_inode` puts
every inode into its record (`sync_clean`), the block layer writes the buffers and the page cache the
pages (`OnDevice`), `gas_fill_super` reads the superblock and the maps (`loaded_of_mount`), and `gas_iget`
the records of the inodes, in any order (`Reopened`).

Each part of the state is on the device in blocks of its own, so each is recovered by itself, from the
bottom up: the bits of the two maps (`Restored.inUse`, `Restored.inodeInUse`), the record of an inode
(`Restored.readsBack`), then its pointers, level by level, since the block of one level is found through
the level above (`Restored.slot`), and with them the bytes of its pages (`Restored.pages`).  The last of
these are the directories, and so the names (`Restored.space`).

`Again` is the whole of it, an unmount and a mount; what it says of the file system in between is used
in `GasFs.Remount`.

The block layer is not modelled as steps.  `OnDevice` states its outcome: at the unmount every dirty
buffer and page has been written.  What comes between is the business of the kernel and not of this
file system.
-/
import GasFs.Namei.Failed

namespace GasFs

open Bytes PtrTree SlotTable Namespace RecordTable

/-! ## 1. Inodes written back

`gas_update_inode` stores an inode in its record, in the buffer of a block of the inode list.  When
it was done for every inode in core, each record is the one of its inode, and writing one leaves the
others. -/

/-- The record of every inode in core is up to date.  After an operation on an inode its record is
stale until it is written back. -/
def Fs.Clean (dev : DevCodec) (d : Fs Nat) : Prop :=
  ∀ k i, d.inodes k = some i → disk_inode d.vol k = gnode_of dev i

/-- The VFS writes inodes back, one after the other.  Each write-back asks for the block of the
record, and fails if that cannot be read. -/
def sync (dev : DevCodec) (d : Fs Nat) (ks : List Nat) : Fs Nat :=
  ks.foldl (fun d k => SysOp.run dev d (.write_inode k)) d

section Sync

variable {dev : DevCodec} {d : Fs Nat} {k : Nat} {i : Inode}

/-- One inode is written to its record, and no other record changes. -/
theorem write_inode_record (h : d.Books) (hk : d.inodes k = some i)
    (hio : d.vol.env.bread d.vol.tick = true) (j : Nat) :
    disk_inode (SysOp.run dev d (.write_inode k)).vol j =
      if j = k then gnode_of dev i else disk_inode d.vol j := by
  have hrun : (SysOp.run dev d (.write_inode k)).vol = (TableOp.gas_update_inode i).run dev d.vol := by
    rw [SysOp.run, Fs.inode_of hk]
    rfl
  have hino := (h.numbers.ino k i hk).1
  rw [hrun]
  split_ifs with hj
  · rw [hj, ← hino]
    exact disk_inode_update dev hio i
  · exact TableOp.disk_inode_of_ne dev h.numbers.geometry.inodes_per_block _ (by rw [← hino] at hj; exact hj)

/-- What writing back keeps.  The data blocks are not written by it. -/
structure Synced (d d' : Fs Nat) : Prop where
  kept : d.Kept d'
  inodes : d'.inodes = d.inodes
  slot : ∀ k q, shape.IsPath q → d'.slot k q = d.slot k q
  bits : ∀ k, d'.vol.inodeInUse k = d.vol.inodeInUse k

/-- **When every inode was written back, all records are up to date**, and nothing else changed. -/
theorem sync_clean (ks : List Nat) : ∀ d : Fs Nat, d.Books → (∀ n, d.vol.env.bread n = true) →
    (∀ k ∈ ks, d.InCore k) → Synced d (sync dev d ks) ∧ ∀ k i, d.inodes k = some i →
      k ∈ ks ∨ disk_inode d.vol k = gnode_of dev i → disk_inode (sync dev d ks).vol k = gnode_of dev i := by
  induction ks with
  | nil =>
    exact fun d h _ _ => ⟨⟨Fs.Kept.refl h, rfl, fun _ _ _ => rfl, fun _ => rfl⟩, fun k i _ hc =>
      hc.resolve_left (List.not_mem_nil)⟩
  | cons k ks ih =>
    intro d h hio hin
    obtain ⟨i, hk⟩ := hin k List.mem_cons_self
    have hrec := @write_inode_record dev d k i h hk (hio _)
    have hkept : d.Kept (SysOp.run dev d (.write_inode k)) := h.write_inode dev ⟨i, hk⟩
    obtain ⟨words, he, -, hslot⟩ := h.write_inode_slot dev hk
    have hrun : SysOp.run dev d (.write_inode k) =
        ⟨{ d.vol with tick := d.vol.tick + 1, words := words }, d.inodes⟩ := by
      rw [SysOp.run, Fs.inode_of hk, he]
    have hsync : sync dev d (k :: ks) = sync dev (SysOp.run dev d (.write_inode k)) ks := rfl
    rw [hsync]
    rw [hrun] at hkept hrec ⊢
    obtain ⟨hs, hclean⟩ := ih _ hkept.books (fun n => by rw [hkept.vol.env]; exact hio n)
      fun j hj => hin j (List.mem_cons_of_mem k hj)
    refine ⟨⟨hkept.trans hs.kept, hs.inodes, fun j q hq => (hs.slot j q hq).trans (hslot j q hq),
      hs.bits⟩, fun j i' hj hc => hclean j i' hj ?_⟩
    by_cases hjk : j = k
    · subst hjk
      obtain rfl := Option.some.inj (hk.symm.trans hj)
      exact Or.inr ((hrec j).trans (if_pos rfl))
    · rcases hc with hm | hd
      · exact Or.inl ((List.mem_cons.mp hm).resolve_left hjk)
      · exact Or.inr (((hrec j).trans (if_neg hjk)).trans hd)

end Sync

/-! ## 2. What is on the device

Two descriptions of the same device: by what was written to it, from the state before, and by what a
mount reads from it, for the state after.  `Reopened` grows the second inode by inode. -/

/-- Everything was written: superblock and maps, the other buffers, and the pages of the files.  In
a hole a file has zeros.  Buffers of the data zone that hold pages are left out: they are covered by
the pages. -/
structure OnDevice (d : Fs Nat) (host : Host) : Prop where
  super : gas_super_block_fill (super_block_of host.super) = d.vol.sbi
  bam : ∀ m < d.vol.sbi.s_bam_blocks, ∀ bit < 32768,
    map_bit (host.blocks d.vol.sbi.s_blocksize (1 + m)) bit = d.vol.bam m bit
  iam : ∀ m < d.vol.sbi.s_iam_blocks, ∀ bit < 32768,
    map_bit (host.blocks d.vol.sbi.s_blocksize (1 + d.vol.sbi.s_bam_blocks + m)) bit = d.vol.iam m bit
  words : ∀ b, d.vol.sbi.s_inode_list_start ≤ b → (∀ k n, d.mapped k n ≠ some b) → ∀ w < 1024,
    le32 (host.blocks d.vol.sbi.s_blocksize b) (4 * w) = d.vol.words b w
  pages : ∀ k i n a, d.inodes k = some i → has_blocks i.i_mode = true → a < 4096 →
    4096 * n + a < i.i_size → i.pages n a = match d.mapped k n with
      | some b => host.blocks d.vol.sbi.s_blocksize b a
      | none => 0

/-- A volume loaded from the device.  The hints of the two allocators are not compared: a mount sets
them to 0. -/
structure Loaded (d : Fs Nat) (host : Host) (v : Vol) : Prop where
  sbi : v.sbi = d.vol.sbi
  bits : v.s_blocksize_bits = 12
  maps : 0 < v.sbi.s_iam_blocks
  bam : ∀ m bit, v.bam m bit = map_bit (host.blocks d.vol.sbi.s_blocksize (1 + m)) bit
  iam : ∀ m bit,
    v.iam m bit = map_bit (host.blocks d.vol.sbi.s_blocksize (1 + d.vol.sbi.s_bam_blocks + m)) bit
  words : ∀ b w, v.words b w = le32 (host.blocks d.vol.sbi.s_blocksize b) (4 * w)

/-- The inode in the record of a number.  The device number is decoded from the first pointer,
whatever the type; only a device has one. -/
def read_inode (dev : DevCodec) (v : Vol) (k : Nat) : Inode :=
  let info := gas_inode_fill (iget_locked_new k) (disk_inode v k)
  gas_set_inode info (dev.new_decode_dev (u32 (info.blkaddr 0)))

/-- It differs from the plain record in the operation table and the device number. -/
theorem read_inode_eq (dev : DevCodec) (v : Vol) (k : Nat) : ∃ op rdev, read_inode dev v k =
    { gas_inode_fill (iget_locked_new k) (disk_inode v k) with i_op := op, i_rdev := rdev } := by
  obtain ⟨op, he⟩ := gas_set_inode_eq (gas_inode_fill (iget_locked_new k) (disk_inode v k))
    (dev.new_decode_dev (u32 ((gas_inode_fill (iget_locked_new k) (disk_inode v k)).blkaddr 0)))
  exact ⟨op, _, he⟩

/-- Buffers can be read. -/
def Vol.readable (v : Vol) : Vol := { v with env := { v.env with bread := fun _ => true } }

/-- A mounted file system, and inodes looked up in it, in any order.  Which inodes are looked up,
and in which order, is open. -/
inductive Reopened (dev : DevCodec) (v : Vol) (root : Inode) : Fs Nat → Prop
  | mount : Reopened dev v root (mounted_fs v root)
  | iget {d : Fs Nat} (h : Reopened dev v root d) {k : Nat} {i : Inode} {w : Vol} (hk : d.inodes k = none)
      (he : gas_iget dev d.inodes d.vol k = (.ok i, w)) :
      Reopened dev v root ⟨w, Function.update d.inodes k (some (i.paged w.readable))⟩

section Reopen

variable {dev : DevCodec} {d d' : Fs Nat} {host : Host} {env : Env} {v w : Vol} {root i : Inode} {k : Nat}

/-- An inode that is not cached is the one in its record. -/
theorem gas_iget_ok {icache : Nat → Option Inode} (hk : icache k = none)
    (he : gas_iget dev icache v k = (.ok i, w)) :
    i = read_inode dev v k ∧ w = { v with tick := v.tick + 2 } := by
  unfold gas_iget sb_bread at he
  cases h0 : v.env.mem v.tick with
  | false => simp [hk, h0] at he
  | true =>
    cases h1 : v.env.bread (v.tick + 1) with
    | false => simp [hk, h0, h1] at he
    | true =>
      simp only [hk, h0, h1, Bool.true_eq_false, if_false] at he
      obtain ⟨hi, hw⟩ := Prod.mk.inj he
      exact ⟨(Except.ok.inj hi).symm, hw.symm⟩

/-- The root inode is read like any other. -/
theorem make_root_read (h : make_root dev v = .ok (w, root)) :
    root = read_inode dev v GAS_ROOT_INO ∧ ∃ t, w = { v with tick := t } := by
  refine ⟨?_, make_root_ok h⟩
  unfold make_root at h
  generalize hr : gas_iget dev (fun _ => none) v GAS_ROOT_INO = r at h
  obtain ⟨e | i, v'⟩ := r
  · simp at h
  · dsimp only at h
    split_ifs at h
    rw [← (Prod.mk.inj (Except.ok.inj h)).2]
    exact (gas_iget_ok rfl hr).1

/-- What a mount loads. -/
theorem loaded_of_mount (hsuper : gas_super_block_fill (super_block_of host.super) = d.vol.sbi)
    (hg : Geometry d.vol) (hhost : host.BlockSizes)
    (hm : (gas_fill_super dev host env).result = .ok (v, root)) :
    Loaded d host v ∧ root = read_inode dev v GAS_ROOT_INO := by
  have hbits := gas_fill_super_bits hhost hm
  obtain ⟨-, bits, hb, hi, -, hroot⟩ := gas_fill_super_ok hm
  obtain ⟨hread, t, rfl⟩ := make_root_read hroot
  have hsize : (super_block_of host.super).s_blocksize = d.vol.sbi.s_blocksize := by
    rw [← hsuper]
    rfl
  have hbam : (super_block_of host.super).s_bam_blocks = d.vol.sbi.s_bam_blocks := by
    rw [← hsuper]
    rfl
  refine ⟨⟨hsuper, ?_, hi, fun m bit => ?_, fun m bit => ?_, fun b w => ?_⟩, hread⟩
  · have hpow : 4096 = 2 ^ bits := by
      rw [← hg.blocksize, ← hsize]
      exact hbits.1
    exact (Nat.pow_right_injective (le_refl 2) (show 2 ^ 12 = 2 ^ bits from hpow)).symm
  · rw [← hsize]
    rfl
  · rw [← hsize, ← hbam]
    rfl
  · rw [← hsize]
    rfl

/-- **Every inode in core is the one in its record**, with the pages it has on the device. -/
theorem Reopened.spec (h : Reopened dev v root d') (hroot : root = read_inode dev v GAS_ROOT_INO) :
    (∃ t, d'.vol = { v with tick := t }) ∧
      ∀ k i, d'.inodes k = some i → ∃ t, i = (read_inode dev v k).paged { v.readable with tick := t } := by
  induction h with
  | mount =>
    refine ⟨⟨v.tick, rfl⟩, fun k i hk => ?_⟩
    unfold mounted_fs at hk
    dsimp only at hk
    rcases eq_or_ne k GAS_ROOT_INO with rfl | hne
    · rw [Function.update_self] at hk
      rw [← Option.some.inj hk, hroot]
      exact ⟨v.tick, rfl⟩
    · rw [Function.update_of_ne hne] at hk
      simp at hk
  | @iget d₁ h k i w hk he ih =>
    obtain ⟨⟨t, hv⟩, hin⟩ := ih
    obtain ⟨rfl, rfl⟩ := gas_iget_ok hk he
    rw [hv]
    refine ⟨⟨t + 2, rfl⟩, fun j i' hj => ?_⟩
    dsimp only at hj
    rcases eq_or_ne j k with rfl | hne
    · rw [Function.update_self] at hj
      rw [← Option.some.inj hj]
      exact ⟨t + 2, rfl⟩
    · rw [Function.update_of_ne hne] at hj
      exact hin j i' hj

end Reopen

/-! ## 3. The same file system

The two descriptions are joined here.  The order is that of the dependencies: the maps do not depend
on anything, the records depend on the inode list, a pointer depends on the block that holds it, and
the bytes on the pointers. -/

/-- The file system read in from the device on which `d` was written.  `d` is the state after the
write-back, so its records are clean. -/
structure Restored (dev : DevCodec) (d : Fs Nat) (host : Host) (d' : Fs Nat) : Prop where
  loaded : Loaded d host d'.vol
  core : ∀ k, d'.InCore k ↔ d.InCore k
  inode : ∀ k i, d'.inodes k = some i →
    ∃ t, i = (read_inode dev d'.vol k).paged { d'.vol.readable with tick := t }

section Same

variable {dev : DevCodec} {d d' : Fs Nat} {host : Host} {i i' : Inode} {k : Nat}

/-- The marks of the blocks that have one. -/
theorem Restored.inUse (h : Restored dev d host d') (hg : Geometry d.vol) (hs : OnDevice d host)
    {b : Nat} (hb : b < d.vol.sbi.s_bam_blocks * 32768) : d'.vol.inUse b = d.vol.inUse b := by
  rw [hg.inUse, Vol.inUse, h.loaded.sbi, hg.bits_per_block, h.loaded.bam,
    hs.bam _ (by omega) _ (Nat.mod_lt _ (by decide))]

/-- The bits of the inode numbers. -/
theorem Restored.inodeInUse (h : Restored dev d host d') (hs : OnDevice d host) (hk : k < d.vol.inoLimit) :
    d'.vol.inodeInUse k = d.vol.inodeInUse k := by
  rw [Vol.inoLimit] at hk
  rw [Vol.inodeInUse, Vol.inodeInUse, h.loaded.iam, hs.iam _ (by omega) _ (Nat.mod_lt _ (by decide))]

/-- A mapped block is in the slot of a leaf. -/
theorem Fs.Books.mapped_path (h : d.Books) {n b : Nat} (hm : d.mapped k n = some b) :
    IsLeaf (block_to_path d.vol n) ∧ d.slot k (block_to_path d.vol n) = b ∧ b ≠ 0 := by
  unfold Fs.mapped at hm
  dsimp only at hm
  split_ifs at hm with h0
  have hne : block_to_path d.vol n ≠ [] := by
    intro he
    rw [he] at h0
    exact h0 (by unfold Fs.slot; split <;> simp [Ctx.val, PtrTree.val])
  rw [← Option.some.inj hm]
  exact ⟨block_to_path_isLeaf h.sound.geometry hne, rfl, h0⟩

/-- **The record of an inode is read as it was written.** -/
theorem Restored.record (h : Restored dev d host d') (hb : d.Books) (hs : OnDevice d host)
    (hclean : d.Clean dev) (hk : d.inodes k = some i) : disk_inode d'.vol k = gnode_of dev i := by
  have hnum := hb.numbered.ino k i hk
  rw [(hb.numbers.ino k i hk).1] at hnum
  have hlist := hb.numbered.list k hnum.2.1
  rw [← hclean k i hk]
  refine disk_inode_congr h.loaded.sbi fun b w hin => ?_
  obtain ⟨hblock, -, hw⟩ := hin
  have hper := hb.numbers.geometry.inodes_per_block
  rw [h.loaded.words, hs.words b]
  · rw [hblock]
    exact Nat.le_add_right _ _
  · intro j n hm
    obtain ⟨hleaf, hq, hne⟩ := hb.mapped_path hm
    have hz := (hb.sound.zone j _ hleaf.1 (by rw [hq]; exact hne)).1
    rw [hq, hblock] at hz
    exact absurd hlist (not_lt.mpr hz)
  · rw [gas_inode_offset, hper] at hw
    have hmod := Nat.mod_lt k (show 0 < 64 by decide)
    have hsize : sizeof_gas_inode = 64 := rfl
    rw [hsize] at hw
    omega

/-- **Every inode comes back as it was.** The fields that a record does not have are not
compared. -/
theorem Restored.readsBack (h : Restored dev d host d') (hb : d.Books) (hs : OnDevice d host)
    (hclean : d.Clean dev) (hk : d.inodes k = some i) (hfit : i.FitsDisk) (hk' : d'.inodes k = some i') :
    ReadsBack i false i' := by
  obtain ⟨t, rfl⟩ := h.inode k i' hk'
  have hrec := h.record hb hs hclean hk
  have hstored : Stored dev ({ d'.vol with env := calm_env },
      fun j => if j = k then some (i, false) else none) := by
    intro ino inode cleared ht
    dsimp only at ht
    split_ifs at ht with hj
    obtain ⟨rfl, rfl⟩ := Prod.mk.inj (Option.some.inj ht)
    rw [hj]
    exact ⟨hfit, (hb.numbers.ino k i hk).1, hrec⟩
  obtain ⟨r, hr, hback⟩ := @Stored.gas_iget dev _ hstored k i false (if_pos rfl) (fun _ => none) rfl rfl rfl
  rw [gas_iget_eq dev rfl rfl rfl] at hr
  have he : read_inode dev d'.vol k = r := Except.ok.inj hr
  rw [← he] at hback
  exact { hback with }

/-- **Every slot of every tree comes back.** The induction is on the path: the block of a slot is
read at the place the level above names. -/
theorem Restored.slot (h : Restored dev d host d') (hb : d.Books) (hs : OnDevice d host)
    (hclean : d.Clean dev) (hfit : ∀ k i, d.inodes k = some i → i.FitsDisk) (k : Nat) {q : List Nat}
    (hq : shape.IsPath q) : d'.slot k q = d.slot k q := by
  cases hk : d.inodes k with
  | none =>
    have hk' : d'.inodes k = none := by
      rw [Option.eq_none_iff_forall_ne_some]
      intro i' hi'
      obtain ⟨i, hi⟩ := (h.core k).mp ⟨i', hi'⟩
      rw [hk] at hi
      simp at hi
    rw [Fs.slot, Fs.slot, hk, hk']
  | some i =>
    obtain ⟨i', hk'⟩ := (h.core k).mpr ⟨i, hk⟩
    have hback := h.readsBack hb hs hclean hk (hfit k i hk) hk'
    have hmode : i'.i_mode = i.i_mode := hback.i_mode
    by_cases hblk : has_blocks i.i_mode = true
    · have hslot := d.slot_of_blocks hk hblk
      rw [hslot, d'.slot_of_blocks hk' (by rw [hmode]; exact hblk)]
      refine val_congr_inner (fun j hj => hback.blkaddr hblk j hj) (fun r j hrj hr hne => ?_) q hq
      have hrpath := hrj.left hr
      have hne' : d.slot k r ≠ 0 := by
        rw [hslot]
        exact hne
      have hnum := hb.numbered.ino k i hk
      rw [(hb.numbers.ino k i hk).1] at hnum
      have hlist := hb.numbered.list k hnum.2.1
      have hz := (hb.sound.zone k r hrpath hne').1
      rw [h.loaded.words]
      refine hs.words _ ?_ (fun k₂ n hm => ?_) j ?_
      · rw [hslot] at hz
        exact (Nat.le_add_right _ _).trans (hlist.le.trans hz)
      · obtain ⟨hleaf, hq₂, -⟩ := hb.mapped_path hm
        obtain ⟨-, he⟩ := hb.sound.one k k₂ r _ hrpath hleaf.1 hne' (by rw [hq₂, hslot]; rfl)
        rw [← he] at hleaf
        exact hleaf.last hrj
      · obtain ⟨i₀, r₀, rfl⟩ := List.exists_cons_of_ne_nil hr
        exact (isPath_cons.mp hrj).2.2 j (by simp)
    · rw [Fs.slot, Fs.slot, hk, hk']
      simp [hmode, hblk]

/-- The slots and the geometry determine what is mapped. -/
theorem Fs.mapped_congr (hg : TreeGeometry d.vol) (hg' : Geometry d'.vol) (hsbi : d'.vol.sbi = d.vol.sbi)
    {k : Nat} (hslot : ∀ q, shape.IsPath q → d'.slot k q = d.slot k q) (n : Nat) :
    d'.mapped k n = d.mapped k n := by
  have hpath : block_to_path d'.vol n = block_to_path d.vol n := by
    rw [block_to_path_eq hg', block_to_path_eq hg.toGeometry, hsbi]
  unfold Fs.mapped
  rw [hpath]
  by_cases hne : block_to_path d.vol n = []
  · have hnil : ∀ d : Fs Nat, d.slot k [] = 0 := fun d => by
      unfold Fs.slot
      split <;> simp [Ctx.val, PtrTree.val]
    rw [hne, hnil, hnil]
  · rw [hslot _ (block_to_path_isLeaf hg hne).1]

/-- The geometry comes back with the superblock. -/
theorem Restored.geometry (h : Restored dev d host d') (hg : TreeGeometry d.vol) : TreeGeometry d'.vol := by
  have hsbi := h.loaded.sbi
  have hbits := h.loaded.bits
  refine ⟨?_, by rw [hsbi]; exact hg.nblocks_le⟩
  constructor <;> simp only [hsbi, hbits, hg.blocksize, hg.bits_per_block, hg.inodes_per_block, hg.data_pos,
    hg.covers, hg.nblocks_lt]

/-- **Every file maps what it mapped.** -/
theorem Restored.mapped (h : Restored dev d host d') (hb : d.Books) (hs : OnDevice d host)
    (hclean : d.Clean dev) (hfit : ∀ k i, d.inodes k = some i → i.FitsDisk) (k n : Nat) :
    d'.mapped k n = d.mapped k n :=
  Fs.mapped_congr hb.sound.geometry (h.geometry hb.sound.geometry).toGeometry h.loaded.sbi
    (fun _ hq => h.slot hb hs hclean hfit k hq) n

/-- The pages in front of the end. -/
theorem gas_dir_pages_le {r : Inode} {n : Nat} : gas_dir_pages r ≤ n ↔ r.i_size ≤ 4096 * n := by
  have hpages : gas_dir_pages r = (r.i_size + 4096 - 1) / 4096 := rfl
  rw [hpages]
  omega

/-- What `gas_readpage` reads, when buffers can be read. -/
theorem gas_readpage_eq {v : Vol} (hio : ∀ n, v.env.bread n = true) (inode : Inode) (n : Nat) :
    gas_readpage v inode n =
      if gas_dir_pages inode ≤ n ∨ Ctx.val ⟨v, inode, 0⟩ (block_to_path v n) = 0 then fun _ => 0
      else v.block (Ctx.val ⟨v, inode, 0⟩ (block_to_path v n)) := by
  unfold gas_readpage
  by_cases hn : gas_dir_pages inode ≤ n
  · rw [if_pos hn, if_pos (Or.inl hn)]
  rw [if_neg hn]
  by_cases h0 : Ctx.val ⟨v, inode, 0⟩ (block_to_path v n) = 0
  · rw [if_pos (Or.inr h0)]
    rcases (gas_get_block_lookup ⟨v, inode, 0⟩ n).2 with hnone | ⟨-, hne, -⟩
    · rw [hnone]
    · exact absurd h0 hne
  · rw [if_neg (not_or.mpr ⟨hn, h0⟩)]
    obtain ⟨c', -, he⟩ := gas_get_block_mapped (c := ⟨v, inode, 0⟩) hio h0 false
    rw [he]

/-- The pages of an inode as they are read in: what the blocks hold, zeros in holes and behind the end. -/
theorem Fs.pages_read {r : Inode} {t : Nat}
    (hk : d.inodes k = some (r.paged { d.vol.readable with tick := t })) (hblk : has_blocks r.i_mode = true) (n : Nat) :
    (r.paged { d.vol.readable with tick := t }).pages n = if r.i_size ≤ 4096 * n then fun _ => 0 else
      match d.mapped k n with
      | some b => d.vol.block b
      | none => fun _ => 0 := by
  have hslot := d.slot_of_blocks hk hblk (block_to_path d.vol n)
  have hpage : (r.paged { d.vol.readable with tick := t }).pages n =
      gas_readpage { d.vol.readable with tick := t } r n := rfl
  have hval : Ctx.val ⟨{ d.vol.readable with tick := t }, r, 0⟩
      (block_to_path { d.vol.readable with tick := t } n) = d.slot k (block_to_path d.vol n) :=
    hslot.symm
  rw [hpage, gas_readpage_eq (fun _ => rfl), hval]
  unfold Fs.mapped
  dsimp only
  by_cases hle : r.i_size ≤ 4096 * n
  · rw [if_pos (Or.inl (gas_dir_pages_le.mpr hle)), if_pos hle]
  rw [if_neg hle]
  by_cases h0 : d.slot k (block_to_path d.vol n) = 0
  · rw [if_pos (Or.inr h0), if_pos h0]
  · rw [if_neg (not_or.mpr ⟨fun hd => hle (gas_dir_pages_le.mp hd), h0⟩), if_neg h0]
    rfl

/-- **Every byte of every file comes back**, and no page has any behind the end.  Behind the end a
page is zeros after a mount, whatever it held before. -/
theorem Restored.pages (h : Restored dev d host d') (hb : d.Books) (hs : OnDevice d host)
    (hclean : d.Clean dev) (hfit : ∀ k i, d.inodes k = some i → i.FitsDisk) (hk : d.inodes k = some i)
    (hk' : d'.inodes k = some i') (hblk : has_blocks i.i_mode = true) {n a : Nat} :
    (a < 4096 → 4096 * n + a < i.i_size → i'.pages n a = i.pages n a) ∧
      (i.i_size ≤ 4096 * n → i'.pages n a = 0) := by
  have hback := h.readsBack hb hs hclean hk (hfit k i hk) hk'
  have hmode : i'.i_mode = i.i_mode := hback.i_mode
  have hsize := hback.i_size
  have hblock : ∀ b, d'.vol.block b = host.blocks d.vol.sbi.s_blocksize b := fun b => by
    rw [Vol.block, funext (h.loaded.words b)]
    exact ofWords_le32 _
  obtain ⟨t, rfl⟩ := h.inode k i' hk'
  generalize read_inode dev d'.vol k = r at hk' hmode hsize
  have hsz : r.i_size = i.i_size := hsize
  rw [Fs.pages_read hk' (by rw [← hblk]; exact congrArg has_blocks hmode), hsz,
    h.mapped hb hs hclean hfit]
  refine ⟨fun ha hlt => ?_, fun hle => by rw [if_pos hle]⟩
  rw [if_neg (by omega), hs.pages k i n a hk hblk ha hlt]
  cases d.mapped k n with
  | none => rfl
  | some b => exact congrFun (hblock b) a

/-- **The books are those of before**, and so are the blocks held, in use and lost. -/
theorem Restored.books (h : Restored dev d host d') (hb : d.Books) (hs : OnDevice d host)
    (hclean : d.Clean dev) (hfit : ∀ k i, d.inodes k = some i → i.FitsDisk) :
    d'.Books ∧ d'.held = d.held ∧ d'.mark = d.mark ∧ d'.lost = d.lost := by
  have hslot := fun k q hq => h.slot hb hs hclean hfit k (q := q) hq
  have hsbi := h.loaded.sbi
  have hg := hb.sound.geometry
  have hg' := h.geometry hg
  have hzone : ∀ b, d'.vol.InZone b ↔ d.vol.InZone b := fun b => by rw [Vol.InZone, Vol.InZone, hsbi]
  have huse : ∀ b, d.vol.InZone b → d'.vol.inUse b = d.vol.inUse b := fun b hz =>
    h.inUse hg.toGeometry hs (lt_of_lt_of_le hz.2 hg.covers)
  have hheld : d'.held = d.held := by
    funext k
    ext b
    simp only [Fs.held, Set.mem_ofPred_eq]
    exact and_congr_right fun _ => exists_congr fun q => and_congr_right fun hq => by rw [hslot k q hq]
  have hmark : d'.mark = d.mark := by
    ext b
    simp only [Fs.mark, Set.mem_ofPred_eq, hzone]
    exact and_congr_right fun hz => by rw [huse b hz]
  have hlim : d'.vol.inoLimit = d.vol.inoLimit := by rw [Vol.inoLimit, Vol.inoLimit, hsbi]
  have hnumber : ∀ k < d.vol.inoLimit, d'.vol.inodeInUse k = d.vol.inodeInUse k := fun k hk =>
    h.inodeInUse hs hk
  have hino : ∀ k i', d'.inodes k = some i' → ∃ i, d.inodes k = some i ∧ i'.i_ino = i.i_ino := by
    intro k i' hk'
    obtain ⟨i, hk⟩ := (h.core k).mp ⟨i', hk'⟩
    exact ⟨i, hk, (h.readsBack hb hs hclean hk (hfit k i hk) hk').i_ino⟩
  refine ⟨⟨⟨hg', fun b hlt hno => ?_, fun k k' q q' hq hq' hne he => ?_, fun k q hq hne => ?_,
    fun k q hq hne => ?_⟩, ⟨?_, ?_, fun n hn hno => ?_, fun k i' hk' => ?_⟩,
    ⟨hg'.toGeometry, ?_, ?_, fun k i' hk' => ?_⟩⟩, hheld, hmark, ?_⟩
  · rw [hsbi] at hlt
    rw [h.inUse hg.toGeometry hs (hg.bits_per_block ▸ hlt)]
    exact hb.sound.padded b hlt fun hz => hno ((hzone b).mpr hz)
  · rw [hslot k q hq] at hne he
    rw [hslot k' q' hq'] at he
    exact hb.sound.one k k' q q' hq hq' hne he
  · rw [hslot k q hq] at hne ⊢
    exact (hzone _).mpr (hb.sound.zone k q hq hne)
  · rw [hslot k q hq] at hne ⊢
    rw [huse _ (hb.sound.zone k q hq hne)]
    exact hb.sound.used k q hq hne
  · rw [hlim]
    exact hb.numbered.limit
  · rw [hsbi]
    exact hb.numbered.list
  · rw [hlim] at hn
    rw [hsbi] at hno
    rw [hnumber n hn]
    exact hb.numbered.padded n hn hno
  · obtain ⟨i, hk, he⟩ := hino k i' hk'
    rw [he, hsbi]
    exact hb.numbered.ino k i hk
  · rw [hlim]
    exact hb.numbers.limit
  · have hpos := h.loaded.maps
    rw [hsbi] at hpos
    rw [hnumber 0 (by rw [Vol.inoLimit]; omega)]
    exact hb.numbers.zero
  · obtain ⟨i, hk, he⟩ := hino k i' hk'
    obtain ⟨h1, h2, h3, h4⟩ := hb.numbers.ino k i hk
    have hlt := (hb.numbered.ino k i hk).2.2
    rw [h1] at hlt
    rw [he, hnumber k hlt]
    exact ⟨h1, h2, h3, h4⟩
  · rw [Fs.lost, Fs.lost, hheld, hmark]

/-- A record lies in front of the end. -/
theorem slotPos_lt_size {t : Nat} (ht : t < i.nslots) :
    4096 * (slotPos t).1 + (slotPos t).2 + 260 ≤ i.i_size := by
  have hn : i.nslots = 15 * (i.i_size / 4096) + i.i_size % 4096 / 260 := rfl
  rw [slotPos]
  dsimp only
  omega

/-- The table is in the bytes in front of the end. -/
theorem slots_congr (hsize : i'.i_size = i.i_size)
    (hbytes : ∀ n a, a < 4096 → 4096 * n + a < i.i_size → i'.pages n a = i.pages n a) :
    i'.slots = i.slots := by
  have hn : i'.nslots = i.nslots := by rw [Inode.nslots, Inode.nslots, hsize]
  rw [Inode.slots, Inode.slots, hn]
  refine List.map_congr_left fun t ht => ?_
  have hend := slotPos_lt_size (List.mem_range.mp ht)
  have htail := slotPos_le t
  exact slotAt_congr fun a h1 h2 => hbytes _ a (by omega) (by omega)

/-- **The directories come back**, and with them the namespace. -/
theorem Restored.space (h : Restored dev d host d') (hb : d.Books) (hs : OnDevice d host)
    (hclean : d.Clean dev) (hfit : ∀ k i, d.inodes k = some i → i.FitsDisk)
    (hlive : ∀ k i, d.inodes k = some i → i.dead = false) :
    d'.space = d.space ∧ (d.DirsOk → d'.DirsOk) := by
  have hall : ∀ k i i', d.inodes k = some i → d'.inodes k = some i' →
      i'.i_nlink = i.i_nlink ∧ i'.i_mode = i.i_mode ∧ i'.dead = false ∧ i'.i_size = i.i_size := by
    intro k i i' hk hk'
    have hback := h.readsBack hb hs hclean hk (hfit k i hk) hk'
    refine ⟨hback.i_nlink, hback.i_mode, ?_, hback.i_size⟩
    obtain ⟨t, rfl⟩ := h.inode k i' hk'
    obtain ⟨op, rdev, he⟩ := read_inode_eq dev d'.vol k
    rw [Inode.paged, he]
    rfl
  have hslots : ∀ k i i', d.inodes k = some i → d'.inodes k = some i' → S_ISDIR i.i_mode = true →
      i'.slots = i.slots := fun k i i' hk hk' hdir =>
    slots_congr (hall k i i' hk hk').2.2.2 fun n a ha hlt =>
      (h.pages hb hs hclean hfit hk hk' (has_blocks_of_dir hdir)).1 ha hlt
  refine ⟨Fs.space_congr fun k => ?_, fun hdirs k hk' => ?_⟩
  · cases hk : d.inodes k with
    | none =>
      cases hk' : d'.inodes k with
      | none => rfl
      | some i' =>
        obtain ⟨i, hi⟩ := (h.core k).mp ⟨i', hk'⟩
        rw [hk] at hi
        simp at hi
    | some i =>
      obtain ⟨i', hk'⟩ := (h.core k).mpr ⟨i, hk⟩
      obtain ⟨hl, hmode, hdead, -⟩ := hall k i i' hk hk'
      rw [hk', Option.map_some, Option.map_some, Inode.shown, Inode.shown, hl, hmode, hdead, hlive k i hk]
      by_cases hdir : S_ISDIR i.i_mode = true
      · rw [hslots k i i' hk hk' hdir]
      · simp [hdir]
  · obtain ⟨i', hi'⟩ := Fs.isDir_some hk'
    obtain ⟨i, hi⟩ := (h.core k).mp ⟨i', hi'⟩
    obtain ⟨-, hmode, hdead, hsize⟩ := hall k i i' hi hi'
    have hdir : S_ISDIR i.i_mode = true := by
      rw [Fs.isDir_of hi', hdead, hmode, Bool.not_false, Bool.and_true] at hk'
      exact hk'
    have hpages := fun n a => h.pages hb hs hclean hfit hi hi' (has_blocks_of_dir hdir) (n := n) (a := a)
    have hsl := hslots k i i' hi hi' hdir
    obtain ⟨hok, huniq⟩ := hdirs k (by rw [Fs.isDir_of hi, hlive k i hi, hdir]; rfl)
    rw [Fs.inode_of hi] at hok huniq
    have hn : i'.nslots = i.nslots := by rw [Inode.nslots, Inode.nslots, hsize]
    rw [Fs.inode_of hi', hsl]
    refine ⟨⟨?_, fun t ht => ?_, fun n a hle _ => ?_⟩, huniq⟩
    · rw [hsize]
      exact hok.size
    · rw [hn] at ht
      have hend := slotPos_lt_size ht
      have htail := slotPos_le t
      rw [(hpages _ _).1 (by omega) (by omega)]
      exact hok.closed t ht
    · rw [hsize] at hle
      exact (hpages n a).2 hle

end Same

/-! ## 4. Unmount and mount

`Again` collects the conditions: the buffers could be read while the inodes were written back, all
inodes in core were written, none is marked as removed, and the values fit their records. -/

/-- `d` was unmounted and `d'` is what was mounted: all inodes were written back, none removed and none too
large for its record, the device showed what was in memory, and the inodes were looked up again. -/
structure Again (dev : DevCodec) (d : Fs Nat) (ks : List Nat) (host : Host) (d' : Fs Nat) : Prop where
  reads : ∀ n, d.vol.env.bread n = true
  all : ∀ k, k ∈ ks ↔ d.InCore k
  live : ∀ k i, d.inodes k = some i → i.dead = false
  fits : ∀ k i, d.inodes k = some i → i.FitsDisk
  device : OnDevice (sync dev d ks) host
  sizes : host.BlockSizes
  mount : ∃ env v root, (gas_fill_super dev host env).result = .ok (v, root) ∧ Reopened dev v root d'
  core : ∀ k, d'.InCore k ↔ d.InCore k

section Again

variable {dev : DevCodec} {d d' : Fs Nat} {ks : List Nat} {host : Host}

/-- In between all is written back. -/
theorem Again.synced (h : Again dev d ks host d') (hb : d.Books) :
    Synced d (sync dev d ks) ∧ (sync dev d ks).Clean dev := by
  obtain ⟨hsync, hclean⟩ := @sync_clean dev ks d hb h.reads fun k hk => (h.all k).mp hk
  refine ⟨hsync, fun k i hk => ?_⟩
  rw [hsync.inodes] at hk
  exact hclean k i hk (Or.inl ((h.all k).mpr ⟨i, hk⟩))

/-- After the write-back the device is that of the state in memory. -/
theorem Again.restored (h : Again dev d ks host d') (hb : d.Books) :
    Restored dev (sync dev d ks) host d' := by
  obtain ⟨hsync, -⟩ := h.synced hb
  obtain ⟨env, v, root, hmount, hopen⟩ := h.mount
  obtain ⟨hl, hroot⟩ := loaded_of_mount h.device.super hsync.kept.books.numbers.geometry h.sizes hmount
  obtain ⟨⟨t, hv⟩, hin⟩ := hopen.spec hroot
  refine ⟨?_, fun k => ?_, fun k i hk => ?_⟩
  · rw [hv]
    exact ⟨hl.sbi, hl.bits, hl.maps, hl.bam, hl.iam, hl.words⟩
  · rw [h.core, Fs.InCore, Fs.InCore, hsync.inodes]
  · rw [hv]
    exact hin k i hk

/-- **The books are those of before.** -/
theorem Again.books (h : Again dev d ks host d') (hb : d.Books) :
    d'.Books ∧ d'.vol.sbi = d.vol.sbi ∧ d'.held = d.held ∧ d'.lost = d.lost ∧
      ∀ k < d.vol.inoLimit, d'.vol.inodeInUse k = d.vol.inodeInUse k := by
  obtain ⟨hsync, hclean⟩ := h.synced hb
  have hr := h.restored hb
  have hsbi := hsync.kept.vol.sbi
  have hfit : ∀ k i, (sync dev d ks).inodes k = some i → i.FitsDisk := by
    rw [hsync.inodes]
    exact h.fits
  have hheld : (sync dev d ks).held = d.held := by
    funext k
    ext b
    simp only [Fs.held, Set.mem_ofPred_eq]
    exact and_congr_right fun _ => exists_congr fun q => and_congr_right fun hq => by
      rw [hsync.slot k q hq]
  obtain ⟨hbooks, hheld', -, hlost'⟩ := hr.books hsync.kept.books h.device hclean hfit
  refine ⟨hbooks, hr.loaded.sbi.trans hsbi, hheld'.trans hheld, hlost'.trans (hsync.kept.exact h.reads),
    fun k hk => ?_⟩
  rw [hr.inodeInUse h.device (by rw [Vol.inoLimit, hsbi]; exact hk), hsync.bits]

end Again

end GasFs
