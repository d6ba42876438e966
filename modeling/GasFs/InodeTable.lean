/-
# The inode table: `gas_update_inode`, `gas_clear_inode` and `gas_iget`

`gas_update_inode` encodes an in-core inode into the 64-byte record of its number, overlaying the
device number of a special file on the first block pointer; `gas_clear_inode` zeroes the mode and
the link count of a record; `gas_iget` decodes a record into a fresh in-core inode.

Where a record lies is the business of `Lib/RecordTable.lean`: `inode_list` is its instance.  What
a record holds is the one word-by-word codec `GasInode.words` / `GasInode.of_words`
(`of_words_words`).  A history `Table` remembers, beside the volume, what was last written back
under each number and whether it was cleared since, and `Stored` says that the records on disk are
those.  Every operation keeps it (`Stored.step`), so any run does, and `gas_iget_stored` reads it
back.

The device number shares its word with the first block pointer, so for the codec a record has two
readings, and the mode decides which one counts.  That the two functions agree on it is part of
`gas_iget_stored`.

Fields are cut to their width on the way out: the link count to 16 bits, the others to 32.  An inode
whose values fit (`Inode.FitsDisk`) comes back as it was, except for what the table does not hold,
such as its page cache.  A link count above 65535 does not occur, since `s_max_links` is 32000.
-/
import GasFs.Bitmap
import GasFs.Mkfs.Layout
import GasFs.Lib.RecordTable

namespace GasFs

open RecordTable

/-! ## 1. Records

The codec alone, without a place. -/

/-- `struct gas_inode`, after `le16_to_cpu` and `le32_to_cpu`.  It is the record as a program sees
it, without the order of the bytes. -/
structure GasInode where
  i_mode : BitVec 16
  i_nlink : BitVec 16
  i_uid : Nat
  i_gid : Nat
  i_size : Nat
  i_atime : Nat
  i_mtime : Nat
  i_ctime : Nat
  i_blkaddr : Fin 9 → Nat

/-- The sixteen words of a record: the two 16-bit fields share the first.  They are numbered from
the start of the record. -/
def GasInode.words (gnode : GasInode) : Fin 16 → Nat
  | 0 => gnode.i_mode.toNat + gnode.i_nlink.toNat * 65536
  | 1 => gnode.i_uid
  | 2 => gnode.i_gid
  | 3 => gnode.i_size
  | 4 => gnode.i_atime
  | 5 => gnode.i_mtime
  | 6 => gnode.i_ctime
  | ⟨i + 7, h⟩ => gnode.i_blkaddr ⟨i, by omega⟩

/-- The record in sixteen words. -/
def GasInode.of_words (w : Fin 16 → Nat) : GasInode where
  i_mode := BitVec.ofNat 16 (w 0)
  i_nlink := BitVec.ofNat 16 (w 0 / 65536)
  i_uid := w 1
  i_gid := w 2
  i_size := w 3
  i_atime := w 4
  i_mtime := w 5
  i_ctime := w 6
  i_blkaddr i := w ⟨i + 7, by omega⟩

/-- **A record survives its encoding.** -/
theorem GasInode.of_words_words (gnode : GasInode) : GasInode.of_words gnode.words = gnode := by
  obtain ⟨mode, nlink, uid, gid, size, atime, mtime, ctime, blkaddr⟩ := gnode
  have hm := mode.isLt
  have hn := nlink.isLt
  simp only [of_words, words, GasInode.mk.injEq, and_true]
  constructor
  · apply BitVec.eq_of_toNat_eq
    rw [BitVec.toNat_ofNat]
    omega
  · apply BitVec.eq_of_toNat_eq
    rw [BitVec.toNat_ofNat]
    omega

/-- Zeroing the first word zeroes the mode and the link count. -/
theorem GasInode.of_words_clear (w : Fin 16 → Nat) :
    GasInode.of_words (fun k => if k = 0 then 0 else w k) =
      { GasInode.of_words w with i_mode := 0, i_nlink := 0 } := by
  simp only [of_words, GasInode.mk.injEq, if_true]
  refine ⟨rfl, rfl, rfl, rfl, rfl, rfl, rfl, rfl, funext fun i => if_neg fun h => ?_⟩
  exact absurd (congrArg Fin.val h) (Nat.succ_ne_zero _)

/-! ## 2. The three functions

Each begins with `gas_get_inode`, whose read may fail; then nothing is written, or an error
is returned. -/

/-- `new_encode_dev` and `new_decode_dev` of Linux: device numbers of 32 bits, kept in 32 bits.  The
two functions are the kernel's, and no more is asked of them than the fields say. -/
structure DevCodec where
  new_encode_dev : Nat → Nat
  new_decode_dev : Nat → Nat
  encode_lt : ∀ d < 4294967296, new_encode_dev d < 4294967296
  decode_encode : ∀ d < 4294967296, new_decode_dev (new_encode_dev d) = d

/-- The record `gas_update_inode` fills in.  The device number is encoded for a device only; other
types have their pointer there. -/
def gnode_of (dev : DevCodec) (inode : Inode) : GasInode where
  i_size := u32 inode.i_size
  i_mode := inode.i_mode
  i_ctime := u32 inode.i_ctime
  i_atime := u32 inode.i_atime
  i_mtime := u32 inode.i_mtime
  i_uid := u32 inode.i_uid
  i_gid := u32 inode.i_gid
  i_nlink := inode.i_nlink.setWidth 16
  i_blkaddr i :=
    if S_ISCHR inode.i_mode || S_ISBLK inode.i_mode then
      if i = 0 then u32 (dev.new_encode_dev inode.i_rdev) else 0
    else inode.blkaddr i

/-- The place of the first block pointer in a record. -/
abbrev blkaddr_0 : Fin 9 := 0

/-- `gas_update_inode`: the block written, or none when it could not be read.  The caller writes
that block to the device if it was asked to wait. -/
def gas_update_inode (dev : DevCodec) (v : Vol) (inode : Inode) : Option Nat × Vol :=
  match gas_get_inode v inode.i_ino with
  | (none, v) => (none, v)
  | (some (block, w), v) =>
    (some block, { v with words := blit v.words block w (gnode_of dev inode).words })

/-- `gas_inode_fill`. -/
def gas_inode_fill (info : Inode) (gnode : GasInode) : Inode :=
  { info with
    i_mode := gnode.i_mode
    i_size := gnode.i_size
    i_ctime := gnode.i_ctime
    i_atime := gnode.i_atime
    i_mtime := gnode.i_mtime
    i_uid := gnode.i_uid
    i_gid := gnode.i_gid
    i_nlink := gnode.i_nlink.setWidth 32
    blkaddr := fun i => if h : i < 9 then gnode.i_blkaddr ⟨i, h⟩ else info.blkaddr i }

/-- The inode `iget_locked` sets up under a number that is not in the inode cache. -/
def iget_locked_new (ino : Nat) : Inode where
  i_ino := ino
  i_mode := 0
  i_nlink := 1
  i_uid := 0
  i_gid := 0
  i_size := 0
  i_atime := 0
  i_mtime := 0
  i_ctime := 0
  i_rdev := 0
  i_op := .none
  blkaddr _ := 0
  pages _ _ := 0
  dead := false

/-- `gas_iget`: the inode in the inode cache, or a new one filled from the table.  It fails without
memory and when the record's block cannot be read. -/
def gas_iget (dev : DevCodec) (icache : Nat → Option Inode) (v : Vol) (ino : Nat) :
    Except Errno Inode × Vol :=
  match icache ino with
  | some inode => (.ok inode, v)
  | none =>
    -- iget_locked
    let ok := v.env.mem v.tick
    let v := { v with tick := v.tick + 1 }
    if ok = false then (.error .ENOMEM, v)
    else
      let block := gas_inode_block v.sbi ino
      let offset := gas_inode_offset v.sbi ino
      match sb_bread v with
      | (false, v) => (.error Errno.EIO, v)
      | (true, v) =>
        let gnode := GasInode.of_words (peek 16 v.words block (offset / 4))
        let info := gas_inode_fill (iget_locked_new ino) gnode
        (.ok (gas_set_inode info (dev.new_decode_dev (u32 (info.blkaddr 0)))), v)

/-! ## 3. Where the records lie

The arithmetic of blocks and offsets is done once, by the library. -/

section Place

variable {v : Vol} (hpb : v.sbi.s_inodes_per_block = 64)
include hpb

/-- The inode list: records of sixteen words.  There are 64 of them in a block. -/
def inode_list (sbi : SbInfo) (h : sbi.s_inodes_per_block = 64) : Placement :=
  ⟨sbi.s_inode_list_start, sbi.s_inodes_per_block, 16, h ▸ Nat.succ_pos 63⟩

theorem inode_list_block (ino : Nat) : (inode_list v.sbi hpb).block ino = gas_inode_block v.sbi ino :=
  rfl

/-- An offset in bytes and a start in words. -/
theorem inode_list_start (ino : Nat) :
    (inode_list v.sbi hpb).start ino = gas_inode_offset v.sbi ino / 4 := by
  simp only [Placement.start, inode_list, gas_inode_offset, sizeof_gas_inode]
  omega

end Place

/-- The record of a number, as it is on disk. -/
def disk_inode (v : Vol) (ino : Nat) : GasInode :=
  GasInode.of_words (peek 16 v.words (gas_inode_block v.sbi ino) (gas_inode_offset v.sbi ino / 4))

/-- A word belongs to the record of a number.  The words of a block are numbered, and a record has
sixteen of them. -/
def InRecord (v : Vol) (ino b w : Nat) : Prop :=
  b = gas_inode_block v.sbi ino ∧ gas_inode_offset v.sbi ino / 4 ≤ w ∧
    w < gas_inode_offset v.sbi ino / 4 + 16

theorem inRecord_iff {v : Vol} (hpb : v.sbi.s_inodes_per_block = 64) (ino b w : Nat) :
    InRecord v ino b w ↔ (inode_list v.sbi hpb).Holds ino b w := by
  rw [Placement.Holds, inode_list_block, inode_list_start]
  rfl

/-- **No word belongs to two records.** -/
theorem InRecord.eq {v : Vol} (hpb : v.sbi.s_inodes_per_block = 64) {ino ino' b w : Nat}
    (h : InRecord v ino b w) (h' : InRecord v ino' b w) : ino = ino' :=
  Placement.Holds.eq ((inRecord_iff hpb _ _ _).mp h) ((inRecord_iff hpb _ _ _).mp h')

/-- The record of a number depends on its own words.  So it is enough to know which words an
operation writes. -/
theorem disk_inode_congr {v v' : Vol} {ino : Nat} (hsbi : v'.sbi = v.sbi)
    (h : ∀ b w, InRecord v ino b w → v'.words b w = v.words b w) :
    disk_inode v' ino = disk_inode v ino := by
  rw [disk_inode, disk_inode, hsbi]
  exact congrArg _ (peek_congr fun w hlo hhi => h _ w ⟨rfl, hlo, hhi⟩)

/-! ## 4. Operations on the table

A write-back writes sixteen words, a clear the first of them. -/

inductive TableOp where
  | gas_update_inode (inode : Inode)
  | gas_clear_inode (ino : Nat)

def TableOp.ino : TableOp → Nat
  | .gas_update_inode inode => inode.i_ino
  | .gas_clear_inode ino => ino

def TableOp.run (dev : DevCodec) (v : Vol) : TableOp → Vol
  | .gas_update_inode inode => (GasFs.gas_update_inode dev v inode).2
  | .gas_clear_inode ino => GasFs.gas_clear_inode v ino

/-- What was last written back under each number, and whether it was cleared since.  It is not kept
by the program; it says what the device should hold. -/
abbrev Table : Type := Nat → Option (Inode × Bool)

/-- An operation that cannot read its block of the table does nothing. -/
def TableOp.last_written (v : Vol) (t : Table) (op : TableOp) : Table :=
  if v.env.bread v.tick = false then t
  else
    match op with
    | .gas_update_inode inode => Function.update t inode.i_ino (some (inode, false))
    | .gas_clear_inode ino => Function.update t ino ((t ino).map fun p => (p.1, true))

def table_step (dev : DevCodec) (s : Vol × Table) (op : TableOp) : Vol × Table :=
  (op.run dev s.1, op.last_written s.1 s.2)

/-- A sequence of write-backs and clears. -/
def table_run (dev : DevCodec) (v : Vol) (ops : List TableOp) : Vol × Table :=
  ops.foldl (table_step dev) (v, fun _ => none)

/-- An operation with a failed buffer read only counts it. -/
theorem TableOp.run_of_unread (dev : DevCodec) {v : Vol} (h : v.env.bread v.tick = false)
    (op : TableOp) : op.run dev v = { v with tick := v.tick + 1 } := by
  cases op <;> simp [TableOp.run, GasFs.gas_update_inode, GasFs.gas_clear_inode, gas_get_inode,
    sb_bread, h]

theorem run_gas_update_inode (dev : DevCodec) {v : Vol} (h : v.env.bread v.tick = true)
    (inode : Inode) :
    (TableOp.gas_update_inode inode).run dev v =
      { v with
        tick := v.tick + 1
        words := blit v.words (gas_inode_block v.sbi inode.i_ino)
          (gas_inode_offset v.sbi inode.i_ino / 4) (gnode_of dev inode).words } := by
  simp [TableOp.run, GasFs.gas_update_inode, gas_get_inode, sb_bread, h]

theorem run_gas_clear_inode (dev : DevCodec) {v : Vol} (h : v.env.bread v.tick = true)
    (ino : Nat) :
    (TableOp.gas_clear_inode ino).run dev v =
      { v with
        tick := v.tick + 1
        words := write_word v.words (gas_inode_block v.sbi ino)
          (gas_inode_offset v.sbi ino / 4) 0 } := by
  simp [TableOp.run, GasFs.gas_clear_inode, gas_get_inode, sb_bread, h]

/-- **The frame of an operation**: the words of its own record, and the number of requests. -/
theorem TableOp.run_frame (dev : DevCodec) (v : Vol) (op : TableOp) :
    ∃ words, op.run dev v = { v with tick := v.tick + 1, words := words } ∧
      ∀ b w, ¬InRecord v op.ino b w → words b w = v.words b w := by
  cases hio : v.env.bread v.tick with
  | false => exact ⟨v.words, op.run_of_unread dev hio, fun _ _ _ => rfl⟩
  | true =>
    cases op with
    | gas_update_inode inode =>
      exact ⟨_, run_gas_update_inode dev hio inode, fun b w h => blit_of_not _ _ h⟩
    | gas_clear_inode ino =>
      refine ⟨_, run_gas_clear_inode dev hio ino, fun b w h => if_neg ?_⟩
      rintro ⟨rfl, rfl⟩
      exact h ⟨rfl, Nat.le_refl _, Nat.lt_add_of_pos_right (Nat.succ_pos 15)⟩

theorem TableOp.run_sbi (dev : DevCodec) (v : Vol) (op : TableOp) : (op.run dev v).sbi = v.sbi := by
  obtain ⟨words, he, -⟩ := op.run_frame dev v
  rw [he]

/-- The records of the other numbers stay. -/
theorem TableOp.disk_inode_of_ne (dev : DevCodec) {v : Vol} (hpb : v.sbi.s_inodes_per_block = 64)
    (op : TableOp) {ino : Nat} (hne : ino ≠ op.ino) :
    disk_inode (op.run dev v) ino = disk_inode v ino := by
  obtain ⟨words, he, hframe⟩ := op.run_frame dev v
  rw [he]
  exact disk_inode_congr rfl fun b w h => hframe b w fun h' => hne (h.eq hpb h')

theorem disk_inode_update (dev : DevCodec) {v : Vol} (h : v.env.bread v.tick = true)
    (inode : Inode) :
    disk_inode ((TableOp.gas_update_inode inode).run dev v) inode.i_ino = gnode_of dev inode := by
  rw [run_gas_update_inode dev h, disk_inode, peek_blit_same, GasInode.of_words_words]

theorem disk_inode_clear (dev : DevCodec) {v : Vol} (h : v.env.bread v.tick = true) (ino : Nat) :
    disk_inode ((TableOp.gas_clear_inode ino).run dev v) ino =
      { disk_inode v ino with i_mode := 0, i_nlink := 0 } := by
  rw [run_gas_clear_inode dev h, disk_inode, disk_inode, ← GasInode.of_words_clear]
  congr 1
  funext k
  simp only [peek, write_word, true_and, Nat.add_eq_left, Fin.ext_iff]
  rfl

/-! ## 5. Every record is the one last written

The history of a run, and the invariant that ties it to the device. -/

/-- The values of an inode fit the fields of its record. -/
structure Inode.FitsDisk (inode : Inode) : Prop where
  i_nlink : inode.i_nlink.toNat < 65536
  i_uid : inode.i_uid < 4294967296
  i_gid : inode.i_gid < 4294967296
  i_size : inode.i_size < 4294967296
  i_atime : inode.i_atime < 4294967296
  i_mtime : inode.i_mtime < 4294967296
  i_ctime : inode.i_ctime < 4294967296
  i_rdev : inode.i_rdev < 4294967296

def TableOp.FitsDisk : TableOp → Prop
  | .gas_update_inode inode => inode.FitsDisk
  | .gas_clear_inode _ => True

/-- The table holds, under each number written back, the record written or what a clear left: the
same record with the first word zero. -/
def Stored (dev : DevCodec) (s : Vol × Table) : Prop :=
  ∀ ino inode cleared, s.2 ino = some (inode, cleared) →
    inode.FitsDisk ∧ inode.i_ino = ino ∧
      disk_inode s.1 ino =
        { gnode_of dev inode with
          i_mode := if cleared then 0 else inode.i_mode
          i_nlink := if cleared then 0 else inode.i_nlink.setWidth 16 }

/-- **One operation keeps the table.** -/
theorem Stored.step {dev : DevCodec} {s : Vol × Table} (h : Stored dev s)
    (hpb : s.1.sbi.s_inodes_per_block = 64) {op : TableOp} (hfit : op.FitsDisk) :
    Stored dev (table_step dev s op) := by
  obtain ⟨v, t⟩ := s
  intro ino inode cleared ht
  simp only [table_step, TableOp.last_written] at ht ⊢
  cases hio : v.env.bread v.tick with
  | false =>
    rw [if_pos hio] at ht
    rw [op.run_of_unread dev hio]
    exact h ino inode cleared ht
  | true =>
    rw [if_neg (by simp [hio])] at ht
    cases op with
    | gas_update_inode inode' =>
      rcases eq_or_ne ino inode'.i_ino with rfl | hne
      · simp only [Function.update_self, Option.some.injEq, Prod.mk.injEq] at ht
        obtain ⟨rfl, rfl⟩ := ht
        exact ⟨hfit, rfl, disk_inode_update dev hio inode'⟩
      · simp only [Function.update_of_ne hne] at ht
        rw [TableOp.disk_inode_of_ne dev hpb _ hne]
        exact h ino inode cleared ht
    | gas_clear_inode ino' =>
      rcases eq_or_ne ino ino' with rfl | hne
      · simp only [Function.update_self, Option.map_eq_some_iff] at ht
        obtain ⟨⟨inode', cleared'⟩, ht, he⟩ := ht
        obtain ⟨rfl, rfl⟩ := Prod.mk.inj he
        obtain ⟨hf, hi, hd⟩ := h ino inode' cleared' ht
        refine ⟨hf, hi, ?_⟩
        rw [disk_inode_clear dev hio, hd]
        rfl
      · simp only [Function.update_of_ne hne] at ht
        rw [TableOp.disk_inode_of_ne dev hpb _ hne]
        exact h ino inode cleared ht

/-- What a run of operations leaves alone.  It is said word by word, so it covers blocks that hold
records of other inodes too. -/
structure TableFrame (ops : List TableOp) (v v' : Vol) : Prop where
  sbi : v'.sbi = v.sbi
  bam : v'.bam = v.bam
  iam : v'.iam = v.iam
  words : ∀ b w, (∀ op ∈ ops, ¬InRecord v op.ino b w) → v'.words b w = v.words b w

/-- **Any sequence of operations keeps the table**, and writes nothing outside the records of its
numbers. -/
theorem Stored.run {dev : DevCodec} (ops : List TableOp) :
    ∀ {s : Vol × Table}, Stored dev s → s.1.sbi.s_inodes_per_block = 64 →
      (∀ op ∈ ops, op.FitsDisk) →
      Stored dev (ops.foldl (table_step dev) s) ∧
        TableFrame ops s.1 (ops.foldl (table_step dev) s).1 := by
  induction ops with
  | nil => exact fun h _ _ => ⟨h, rfl, rfl, rfl, fun _ _ _ => rfl⟩
  | cons op ops ih =>
    intro s h hpb hfit
    obtain ⟨words, he, hframe⟩ := op.run_frame dev s.1
    have hpb' : (table_step dev s op).1.sbi.s_inodes_per_block = 64 := by
      rw [table_step, op.run_sbi]
      exact hpb
    obtain ⟨hst, hf⟩ := ih (h.step hpb (hfit op List.mem_cons_self)) hpb'
      fun op' hop => hfit op' (List.mem_cons_of_mem _ hop)
    have hrun : (table_step dev s op).1 = { s.1 with tick := s.1.tick + 1, words := words } := he
    rw [hrun] at hf
    rw [List.foldl_cons]
    refine ⟨hst, hf.sbi, hf.bam, hf.iam, fun b w hb => ?_⟩
    rw [hf.words b w fun op' hop => hb op' (List.mem_cons_of_mem _ hop)]
    exact hframe b w (hb op List.mem_cons_self)

/-! ## 6. Reading back

A later `gas_iget` of a number, from a kernel that has no inode of it in core. -/

/-- The inode read back is the one written: `cleared` says that its record was cleared since.  The
page cache is not in it, and neither is the count of references. -/
structure ReadsBack (inode : Inode) (cleared : Bool) (r : Inode) : Prop where
  i_ino : r.i_ino = inode.i_ino
  i_mode : r.i_mode = if cleared then 0 else inode.i_mode
  i_nlink : r.i_nlink = if cleared then 0 else inode.i_nlink
  i_uid : r.i_uid = inode.i_uid
  i_gid : r.i_gid = inode.i_gid
  i_size : r.i_size = inode.i_size
  i_atime : r.i_atime = inode.i_atime
  i_mtime : r.i_mtime = inode.i_mtime
  i_ctime : r.i_ctime = inode.i_ctime
  blkaddr : has_blocks inode.i_mode = true → ∀ i < 9, r.blkaddr i = inode.blkaddr i
  i_rdev : (S_ISCHR inode.i_mode || S_ISBLK inode.i_mode) = true → cleared = false →
    r.i_rdev = inode.i_rdev

/-- Not both: a file with block pointers and a device. -/
theorem not_device_of_has_blocks {mode : BitVec 16} (h : has_blocks mode = true) :
    (S_ISCHR mode || S_ISBLK mode) = false := by
  simp only [has_blocks, S_ISREG, S_ISDIR, S_ISLNK, Bool.or_eq_true, beq_iff_eq] at h
  simp only [S_ISCHR, S_ISBLK]
  rcases h with (h | h) | h
  · rw [h]; rfl
  · rw [h]; rfl
  · rw [h]; rfl

/-- `gas_set_inode` gives out the operation tables, and the device number to a device. -/
theorem gas_set_inode_eq (inode : Inode) (rdev : Nat) :
    ∃ op, gas_set_inode inode rdev =
      { inode with
        i_op := op
        i_rdev := if S_ISCHR inode.i_mode || S_ISBLK inode.i_mode then rdev else inode.i_rdev } := by
  unfold gas_set_inode
  split
  · next h => exact ⟨_, by rw [not_device_of_has_blocks (by simp [has_blocks, h])]; rfl⟩
  · split
    · next h => exact ⟨_, by rw [not_device_of_has_blocks (by simp [has_blocks, h])]; rfl⟩
    · split
      · next h => exact ⟨_, by rw [not_device_of_has_blocks (by simp [has_blocks, h])]; rfl⟩
      · refine ⟨inode.i_op, ?_⟩
        split
        · rfl
        · rfl

/-- `gas_iget` of a number that is not cached, with memory and a buffer at hand. -/
theorem gas_iget_eq (dev : DevCodec) {icache : Nat → Option Inode} {v : Vol} {ino : Nat}
    (hc : icache ino = none) (hm : v.env.mem v.tick = true)
    (hio : v.env.bread (v.tick + 1) = true) :
    (gas_iget dev icache v ino).1 =
      .ok (gas_set_inode (gas_inode_fill (iget_locked_new ino) (disk_inode v ino))
        (dev.new_decode_dev (u32 ((disk_inode v ino).i_blkaddr 0)))) := by
  simp only [gas_iget, hc, hm, sb_bread, hio]
  rfl

/-- The low half of a count that fits it. -/
theorem setWidth_setWidth_of_lt {x : BitVec 32} (h : x.toNat < 65536) :
    (x.setWidth 16).setWidth 32 = x := by
  apply BitVec.eq_of_toNat_eq
  simp only [BitVec.toNat_setWidth]
  omega

/-- **Reading back a stored record.** -/
theorem Stored.gas_iget {dev : DevCodec} {s : Vol × Table} (h : Stored dev s) {ino : Nat}
    {inode : Inode} {cleared : Bool} (ht : s.2 ino = some (inode, cleared))
    {icache : Nat → Option Inode} (hc : icache ino = none) (hm : s.1.env.mem s.1.tick = true)
    (hio : s.1.env.bread (s.1.tick + 1) = true) :
    ∃ r, (GasFs.gas_iget dev icache s.1 ino).1 = .ok r ∧ ReadsBack inode cleared r := by
  obtain ⟨hfit, hino, hd⟩ := h ino inode cleared ht
  refine ⟨_, gas_iget_eq dev hc hm hio, ?_⟩
  rw [hd]
  obtain ⟨op, he⟩ := gas_set_inode_eq
    (gas_inode_fill (iget_locked_new ino)
      { gnode_of dev inode with
        i_mode := if cleared then 0 else inode.i_mode
        i_nlink := if cleared then 0 else inode.i_nlink.setWidth 16 })
    (dev.new_decode_dev (u32 ((gnode_of dev inode).i_blkaddr 0)))
  rw [he]
  refine ⟨hino.symm, rfl, ?_, u32_of_lt hfit.i_uid, u32_of_lt hfit.i_gid, u32_of_lt hfit.i_size,
    u32_of_lt hfit.i_atime, u32_of_lt hfit.i_mtime, u32_of_lt hfit.i_ctime, fun hb i hi => ?_,
    fun hdev hcl => ?_⟩
  · cases cleared with
    | true => rfl
    | false => exact setWidth_setWidth_of_lt hfit.i_nlink
  · simp [gas_inode_fill, gnode_of, hi, not_device_of_has_blocks hb]
  · have hlt := dev.encode_lt _ hfit.i_rdev
    simp [gas_inode_fill, gnode_of, hcl, hdev, u32_of_lt hlt, dev.decode_encode _ hfit.i_rdev]

/-- The records of the inode list lie between the maps and the data zone. -/
theorem InRecord.in_list {size : Nat} {v : Vol} (hv : v.sbi = mkfs_sbi size)
    (hfits : (filesys_param size).Fits) {ino b w : Nat} (hino : ino < v.sbi.s_ninodes)
    (h : InRecord v ino b w) :
    (filesys_param size).INODE_LIST_START ≤ b ∧ b < (filesys_param size).data_st := by
  have hpb : v.sbi.s_inodes_per_block = 64 := by rw [hv]; exact (mkfs_sbi_per_block size).2.2
  obtain ⟨-, -, -, hcnt, hstart, -⟩ := mkfs_sbi_of_fits hfits
  obtain ⟨hst, hblk, -⟩ := filesys_param_counts size
  have hlt : ino < (filesys_param size).ino_blk * v.sbi.s_inodes_per_block := by
    rw [hpb, ← hblk, ← hcnt, ← hv]
    exact hino
  have hb := ((inRecord_iff hpb ino b w).mp h).block_lt hlt
  rw [hst, ← hstart, ← hv]
  exact hb

/-- **The inode table is a faithful store.**  After any sequence of write-backs and clears on a
volume laid out by `mkfs.gas`, `gas_iget` gives back every inode as it was last written; no word
outside the records of the numbers used has changed, nor has either map; and when the layout fits
its fields, nothing in front of the inode list or in the data zone has. -/
theorem inode_table_run (dev : DevCodec) {size : Nat} {v : Vol} (hv : v.sbi = mkfs_sbi size)
    (ops : List TableOp) (hops : ∀ op ∈ ops, op.ino < v.sbi.s_ninodes ∧ op.FitsDisk) :
    let s := table_run dev v ops
    (∀ ino inode cleared icache, s.2 ino = some (inode, cleared) → icache ino = none →
      s.1.env.mem s.1.tick = true → s.1.env.bread (s.1.tick + 1) = true →
      ∃ r, (gas_iget dev icache s.1 ino).1 = .ok r ∧ ReadsBack inode cleared r) ∧
    s.1.bam = v.bam ∧ s.1.iam = v.iam ∧
    (∀ b w, (∀ op ∈ ops, ¬InRecord v op.ino b w) → s.1.words b w = v.words b w) ∧
    ((filesys_param size).Fits → ∀ b w,
      b < (filesys_param size).INODE_LIST_START ∨ (filesys_param size).data_st ≤ b →
      s.1.words b w = v.words b w) := by
  have hpb : v.sbi.s_inodes_per_block = 64 := by rw [hv]; exact (mkfs_sbi_per_block size).2.2
  have hnone : Stored dev (v, fun _ => none) := fun _ _ _ h => absurd h (by simp)
  obtain ⟨hst, hf⟩ := Stored.run ops hnone hpb fun op hop => (hops op hop).2
  refine ⟨fun ino inode cleared icache ht hc hm hio => hst.gas_iget ht hc hm hio, hf.bam, hf.iam,
    hf.words, fun hfits b w hb => hf.words b w fun op hop h => ?_⟩
  obtain ⟨hlo, hhi⟩ := h.in_list hv hfits (hops op hop).1
  omega

/-- The device numbers of Linux: major and minor number, as a device number and in the layout of
the old 16-bit numbers. -/
def linux_dev : DevCodec where
  new_encode_dev d := d % 256 + d / 1048576 * 256 + d % 1048576 / 256 * 1048576
  new_decode_dev e := e / 256 % 4096 * 1048576 + e % 256 + e / 1048576 * 256
  encode_lt d h := by omega
  decode_encode d h := by
    have hd : d = d / 1048576 * 1048576 + d % 1048576 / 256 * 256 + d % 256 := by omega
    have hz : d / 1048576 < 4096 := by omega
    have hy : d % 1048576 / 256 < 4096 := by omega
    have hx : d % 256 < 256 := by omega
    generalize d / 1048576 = z at *
    generalize d % 1048576 / 256 = y at *
    generalize d % 256 = x at *
    have h1 : (x + z * 256 + y * 1048576) / 256 % 4096 = z := by omega
    have h2 : (x + z * 256 + y * 1048576) % 256 = x := by omega
    have h3 : (x + z * 256 + y * 1048576) / 1048576 = y := by omega
    rw [h1, h2, h3, hd, Nat.add_right_comm]

/-- A device of 256 blocks, all of them zero. -/
def blank_vol : Vol where
  sbi := mkfs_sbi 1048576
  s_blocksize_bits := 12
  s_bam_last := ⟨0, by decide⟩
  s_iam_last := ⟨0, by decide⟩
  bam _ _ := false
  iam _ _ := false
  words _ _ := 0
  env := ⟨fun _ => true, fun _ => true, fun _ _ => 0, fun _ => true, fun _ => 0, 0, 0⟩
  tick := 0

/-- A character device, major 1 and minor 3, under the number 5. -/
def null_inode : Inode :=
  { iget_locked_new 5 with i_mode := S_IFCHR, i_rdev := 1048579 }

theorem null_inode_fits : null_inode.FitsDisk := by
  constructor <;> decide

/-- It comes back after another inode was written, beside it and in the same block. -/
theorem null_inode_table :
    ∃ r, (gas_iget linux_dev (fun _ => none)
        (table_run linux_dev blank_vol
          [.gas_update_inode null_inode, .gas_clear_inode 6]).1 5).1 = .ok r ∧
      ReadsBack null_inode false r :=
  (inode_table_run linux_dev (v := blank_vol) rfl
    [.gas_update_inode null_inode, .gas_clear_inode 6] (by
      intro op hop
      rcases List.mem_cons.mp hop with rfl | hop
      · exact ⟨by decide, null_inode_fits⟩
      · rw [List.mem_singleton.mp hop]
        exact ⟨by decide, trivial⟩)).1 5 null_inode false (fun _ => none) rfl rfl rfl rfl

/-- **A cleared device loses its number**: its mode is gone, and only a device is given one. -/
theorem cleared_device_number :
    (table_run linux_dev blank_vol [.gas_update_inode null_inode, .gas_clear_inode 5]).2 5 =
        some (null_inode, true) ∧
      S_ISCHR null_inode.i_mode = true ∧ null_inode.FitsDisk ∧
      ∃ r, (gas_iget linux_dev (fun _ => none)
          (table_run linux_dev blank_vol
            [.gas_update_inode null_inode, .gas_clear_inode 5]).1 5).1 = .ok r ∧
        r.i_rdev ≠ null_inode.i_rdev := by
  refine ⟨rfl, rfl, null_inode_fits, _, rfl, ?_⟩
  decide

end GasFs
