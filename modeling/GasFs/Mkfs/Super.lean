/-
# The superblock stays

`init_super_block` writes block 0 first, and everything else `mkfs.gas` does leaves the seven words
of it alone: the maps and the inode list lie behind it, and what goes through the cache is either
another block or the second entry of the root directory, which begins at byte 260.

The second case is real.  On a device of fewer than 256 blocks there is no inode list, so the record
of the root directory is kept in the first data block, where the first entry may overwrite it; the
second entry then goes where the damaged record points, which may be block 0.  `mkfs_super` holds
for every device all the same, and `mounted_large` draws the conclusion: such a device is never
mounted.

A property of block 0 is carried through the program as a whole.  `Mkfs.Guarded` says that block 0
has it, on the device and in the cache, and `Passes` says that a step keeps it.  A step that edits
another block passes every property; an edit of block 0 has to be shown to keep it, and the only one
there is writes from byte 260 on.

With the superblock in place the rest is the image: the second half of the module mounts it.  What
the kernel sees of a device it mounts is `ShowsImage`, and `FreshMount.shows` is the result that
later modules start from.
-/
import GasFs.Mkfs.Fresh

namespace GasFs

open Bytes

/-! ## 1. A property of block 0

The property is a parameter.  For the program it is that of the seven words of the superblock; where
only the blocks cached matter it is the one that always holds.
-/

/-- Block 0 has the property, on the device and in the cache.  A cached copy of block 0 counts too:
it may be written back. -/
def Mkfs.Guarded (S : Mem → Prop) (st : Mkfs) : Prop :=
  S (st.dev 0) ∧ ∀ it ∈ st.bc_head, it.blk_id = 0 → S it.block

/-- A step keeps the property of block 0, and what is cached. -/
structure Passes (S : Mem → Prop) (st st' : Mkfs) : Prop where
  guarded : st.Guarded S → st'.Guarded S
  keeps : ∀ b, st.Cached b → st'.Cached b

section Passes

variable {S : Mem → Prop} {st st' st'' : Mkfs} {b : Nat}

/-- Doing nothing passes every property. -/
theorem Passes.refl (st : Mkfs) : Passes S st st := ⟨fun h => h, fun _ h => h⟩

/-- Two steps that pass a property pass it together. -/
theorem Passes.trans (h : Passes S st st') (h' : Passes S st' st'') : Passes S st st'' :=
  ⟨fun hg => h'.guarded (h.guarded hg), fun b hb => h'.keeps b (h.keeps b hb)⟩

/-- An entry of the changed list is an old one or the change of one under that number. -/
theorem mem_bc_change {l : List BlkCache} {g : BlkCache → BlkCache} {it : BlkCache}
    (h : it ∈ bc_change l b g) : it ∈ l ∨ ∃ it' ∈ l, it'.blk_id = b ∧ it = g it' := by
  induction l with
  | nil => exact Or.inl h
  | cons hd next ih =>
    simp only [bc_change] at h
    split at h
    · next he =>
      rcases List.mem_cons.mp h with rfl | h
      · exact Or.inr ⟨hd, List.mem_cons_self, he, rfl⟩
      · exact Or.inl (List.mem_cons_of_mem hd h)
    · rcases List.mem_cons.mp h with rfl | h
      · exact Or.inl List.mem_cons_self
      · rcases ih h with h | ⟨it', hmem, he, rfl⟩
        · exact Or.inl (List.mem_cons_of_mem hd h)
        · exact Or.inr ⟨it', List.mem_cons_of_mem hd hmem, he, rfl⟩

/-- `bc_read` shows what is on the device or in the list, and both have the property. -/
theorem bc_read_passes (h : bc_read st b = some st') : Passes S st st' := by
  refine ⟨fun hg => ?_, (bc_read_reads h).keeps⟩
  simp only [bc_read] at h
  split at h
  · obtain rfl := Option.some.inj h
    exact hg
  · split at h
    · exact absurd h (by simp)
    · next block he =>
      obtain rfl := Option.some.inj h
      refine ⟨hg.1, fun it hit hz => ?_⟩
      rcases List.mem_cons.mp hit with rfl | hit
      · simp only [read_block] at he
        split at he
        · obtain rfl := Option.some.inj he
          obtain rfl : b = 0 := hz
          exact hg.1
        · exact absurd he (by simp)
      · exact hg.2 it hit hz

/-- An edit has to keep the property when it is one of block 0. -/
theorem bc_edit_passes {f : Mem → Mem} (hf : b = 0 → ∀ m, S m → S (f m)) (hc : st.Cached b) :
    Passes S st (bc_edit st b f) := by
  refine ⟨fun hg => ⟨hg.1, fun it hit hz => ?_⟩, fun b' => ((bc_edit_edits f hc).cached b').mpr⟩
  rcases mem_bc_change hit with hit | ⟨it', hmem, hb, rfl⟩
  · exact hg.2 it hit hz
  · exact hf (hb.symm.trans hz) _ (hg.2 it' hmem hz)

/-- Marking a block, or writing it at once, moves what has the property already. -/
theorem bc_write_passes (h : bc_write st b false = some st') (hc : st.Cached b) :
    Passes S st st' := by
  refine ⟨fun hg => ?_, fun b' => ((bc_write_marks h hc).cached b').mpr⟩
  simp only [bc_write] at h
  split at h
  · obtain rfl := Option.some.inj h
    exact hg
  · simp only [Bool.false_eq_true, if_false, Option.some.injEq] at h
    subst h
    refine ⟨hg.1, fun it hit hz => ?_⟩
    rcases mem_bc_change hit with hit | ⟨it', hmem, -, rfl⟩
    · exact hg.2 it hit hz
    · exact hg.2 it' hmem hz

/-- Writing back keeps it. -/
theorem bc_sync_loop_guarded : ∀ {l : List BlkCache} {dev dev' : Dev},
    bc_sync_loop l dev = some dev' → Mkfs.Guarded S ⟨dev, l⟩ → S (dev' 0) := by
  intro l
  induction l with
  | nil =>
    intro dev dev' h hg
    obtain rfl := Option.some.inj h
    exact hg.1
  | cons it next ih =>
    intro dev dev' h hg
    have hnext : ∀ it' ∈ next, it'.blk_id = 0 → S it'.block :=
      fun it' hit => hg.2 it' (List.mem_cons_of_mem it hit)
    simp only [bc_sync_loop] at h
    split at h
    · split at h
      · exact absurd h (by simp)
      · next dev1 hw =>
        obtain ⟨-, rfl⟩ := write_block_eq_some.mp hw
        refine ih h ⟨?_, hnext⟩
        rcases eq_or_ne it.blk_id 0 with hz | hne
        · have hit := hg.2 it List.mem_cons_self hz
          simpa only [hz, Function.update_self] using hit
        · simpa only [Function.update_of_ne hne.symm] using hg.1
    · exact ih h ⟨hg.1, hnext⟩

end Passes

/-! ## 2. The root directory

The calls of `make_rootdir` one by one.  What decides is where `gas_add_dentry` writes: into the
first block of the directory as the record has it at that moment, and the record may have been
written over by the entry in front.  Its first block is not block 0 when the first entry goes in,
and its size is not 0 when the second does. -/

section Root

variable {S : Mem → Prop} {gas : FilesysParam} {st st' : Mkfs}

/-- The map blocks come behind block 0. -/
theorem allocate_blk_loop_passes {blocks : Nat} : ∀ {rounds i block : Nat} {st st' : Mkfs} {n : Nat},
    0 < block → allocate_blk_loop blocks rounds i block st = some (n, st') →
    Passes S st st' ∧ n < 4294967296 := by
  intro rounds
  induction rounds with
  | zero =>
    intro i block st st' n _ h
    obtain ⟨rfl, rfl⟩ := Prod.mk.inj (Option.some.inj h)
    exact ⟨.refl st, by decide⟩
  | succ rounds ih =>
    intro i block st st' n hpos h
    simp only [allocate_blk_loop, Option.bind_eq_bind, Option.bind_eq_some_iff] at h
    obtain ⟨st1, h1, h⟩ := h
    have hc := (bc_read_reads h1).cached
    have hedit : ∀ f, Passes S st1 (bc_edit st1 block f) := fun f =>
      bc_edit_passes (fun hz => absurd hz hpos.ne') hc
    have hpass : ∀ f, Passes S st (bc_edit st1 block f) := fun f =>
      (bc_read_passes h1).trans (hedit f)
    split at h
    · obtain ⟨hrest, hn⟩ := ih (Nat.succ_pos block) h
      exact ⟨(hpass _).trans hrest, hn⟩
    · simp only [Option.bind_eq_some_iff] at h
      obtain ⟨st2, h2, h⟩ := h
      obtain ⟨rfl, rfl⟩ := Prod.mk.inj (Option.some.inj h)
      exact ⟨(hpass _).trans (bc_write_passes h2 ((hedit _).keeps block hc)), u32_lt _⟩

theorem allocate_inode_passes {n : Nat} (h : allocate_inode gas st = some (n, st')) :
    Passes S st st' := by
  have hpos : gas.IAM_BLOCK_START ≠ 0 := by
    simp only [FilesysParam.IAM_BLOCK_START, BAM_BLOCK_START]
    omega
  simp only [allocate_inode, Option.bind_eq_bind, Option.bind_eq_some_iff] at h
  obtain ⟨st1, h1, h⟩ := h
  have hc := (bc_read_reads h1).cached
  have hedit : ∀ f, Passes S st1 (bc_edit st1 gas.IAM_BLOCK_START f) := fun f =>
    bc_edit_passes (fun hz => absurd hz hpos) hc
  split at h
  · obtain ⟨rfl, rfl⟩ := Prod.mk.inj (Option.some.inj h)
    exact (bc_read_passes h1).trans (hedit _)
  · simp only [Option.bind_eq_some_iff] at h
    obtain ⟨st2, h2, h⟩ := h
    obtain ⟨rfl, rfl⟩ := Prod.mk.inj (Option.some.inj h)
    exact ((bc_read_passes h1).trans (hedit _)).trans
      (bc_write_passes h2 ((hedit _).keeps _ hc))

theorem get_inode_reads {ino_id : Nat} (h : get_inode gas st ino_id = some st') :
    bc_read st gas.INODE_LIST_START = some st' := by
  simp only [get_inode, Option.bind_eq_bind, Option.bind_eq_some_iff] at h
  obtain ⟨st1, h1, h⟩ := h
  split at h
  · exact absurd h (by simp)
  · obtain rfl := Option.some.inj h
    exact h1

theorem get_inode_passes {ino_id : Nat} (h : get_inode gas st ino_id = some st') :
    Passes S st st' ∧ st'.Cached gas.INODE_LIST_START :=
  ⟨bc_read_passes (get_inode_reads h), (bc_read_reads (get_inode_reads h)).cached⟩

/-- A record fits when its fields do. -/
theorem GasInode.fits_of_fields {ino : GasInode} (huid : ino.i_uid < 4294967296)
    (hgid : ino.i_gid < 4294967296) (hsize : ino.i_size < 4294967296)
    (hatime : ino.i_atime < 4294967296) (hmtime : ino.i_mtime < 4294967296)
    (hctime : ino.i_ctime < 4294967296) (hblk : ∀ i, ino.i_blkaddr i < 4294967296) : ino.Fits := by
  refine GasInode.fits_of (fun k h1 h2 => ?_) hblk
  obtain rfl | rfl | rfl | rfl | rfl | rfl : k = 1 ∨ k = 2 ∨ k = 3 ∨ k = 4 ∨ k = 5 ∨ k = 6 := by
    omega
  · exact huid
  · exact hgid
  · exact hsize
  · exact hatime
  · exact hmtime
  · exact hctime

/-- A record read from a block fits its fields. -/
theorem get_record_fits (block : Mem) (ino_id : Nat) : (get_record block ino_id).Fits :=
  GasInode.fits_of_fields (le32_lt _ _) (le32_lt _ _) (le32_lt _ _) (le32_lt _ _) (le32_lt _ _)
    (le32_lt _ _) fun _ => le32_lt _ _

theorem GasInode.Fits.i_blkaddr {ino : GasInode} (h : ino.Fits) (i : Fin 9) :
    ino.i_blkaddr i < 4294967296 :=
  h ⟨i + 7, by omega⟩

/-- A record with another first block. -/
theorem GasInode.Fits.first_block {ino : GasInode} (h : ino.Fits) {n : Nat} (hn : n < 4294967296) :
    GasInode.Fits { ino with i_blkaddr := Function.update ino.i_blkaddr blkaddr_0 n } := by
  refine GasInode.fits_of_fields (h 1) (h 2) (h 3) (h 4) (h 5) (h 6) fun i => ?_
  rcases eq_or_ne i blkaddr_0 with rfl | hne
  · simpa only [Function.update_self] using hn
  · simpa only [Function.update_of_ne hne] using h.i_blkaddr i

/-- The calls of a `new_inode` that succeeds, and the record it leaves.  A proof about `new_inode` is
then one about its calls. -/
theorem new_inode_calls {who : Caller} {mode : BitVec 16} {size ino_id : Nat}
    (h : new_inode gas who st mode size = some (ino_id, st')) (hino : ino_id ≠ 0) :
    ∃ st1 st2 st3 n e1 e2, allocate_inode gas st = some (ino_id, st1) ∧
      get_inode gas st1 ino_id = some st2 ∧
      allocate_blk gas st2 ((size + GAS_BLOCK_SIZE - 1) / GAS_BLOCK_SIZE) = some (n, st3) ∧ n ≠ 0 ∧
      bc_write (bc_edit (bc_edit st3 gas.INODE_LIST_START e1) gas.INODE_LIST_START e2)
        gas.INODE_LIST_START false = some st' ∧
      (get_record (st'.get gas.INODE_LIST_START) ino_id).i_size = 0 ∧
      (get_record (st'.get gas.INODE_LIST_START) ino_id).i_blkaddr blkaddr_0 = n := by
  simp only [new_inode, Option.bind_eq_bind, Option.bind_eq_some_iff] at h
  obtain ⟨⟨id, st1⟩, h1, h⟩ := h
  dsimp only at h
  split at h
  · obtain ⟨rfl, -⟩ := Prod.mk.inj (Option.some.inj h)
    contradiction
  · simp only [Option.bind_eq_some_iff] at h
    obtain ⟨st2, h2, ⟨n, st3⟩, h3, h⟩ := h
    dsimp only at h
    split at h
    · simp only [Option.bind_eq_some_iff] at h
      obtain ⟨st4, -, h⟩ := h
      obtain ⟨rfl, -⟩ := Prod.mk.inj (Option.some.inj h)
      contradiction
    · next hn0 =>
      simp only [Option.bind_eq_some_iff] at h
      obtain ⟨st4, h4, h⟩ := h
      obtain ⟨rfl, rfl⟩ := Prod.mk.inj (Option.some.inj h)
      refine ⟨st1, st2, st3, n, _, _, h1, h2, h3, hn0, h4, ?_⟩
      obtain ⟨hp3, hn⟩ := allocate_blk_loop_passes (S := fun _ => True) (Nat.succ_pos 0) h3
      have hc3 := hp3.keeps _ (get_inode_passes (S := fun _ => True) h2).2
      have hedit : ∀ (st : Mkfs) (f : Mem → Mem), st.Cached gas.INODE_LIST_START →
          (bc_edit st gas.INODE_LIST_START f).Cached gas.INODE_LIST_START ∧
            (bc_edit st gas.INODE_LIST_START f).get gas.INODE_LIST_START =
              f (st.get gas.INODE_LIST_START) := fun st f hc =>
        ⟨((bc_edit_edits f hc).cached _).mpr hc, ((bc_edit_edits f hc).get _).trans (if_pos rfl)⟩
      obtain ⟨hc4, hg4⟩ := hedit st3 _ hc3
      obtain ⟨hc5, hg5⟩ := hedit _ _ hc4
      have hfit := (get_record_fits (st3.get gas.INODE_LIST_START) id).first_block hn
      have hrec := get_edit_record (st3.get gas.INODE_LIST_START) id
        (fun ino => { ino with i_blkaddr := Function.update ino.i_blkaddr blkaddr_0 n }) hfit
      rw [(bc_write_marks h4 hc5).get, hg5, hg4, get_edit_record, hrec]
      · exact ⟨rfl, by simp only [Function.update_self]⟩
      · rw [hrec]
        exact GasInode.fits_of_fields (u32_lt _) (u32_lt _) (Nat.succ_pos _) (u32_lt _) (u32_lt _)
          (u32_lt _) hfit.i_blkaddr

/-- **The new directory**: empty, and its first block is not block 0. -/
theorem new_inode_passes {who : Caller} {mode : BitVec 16} {size ino_id : Nat}
    (h : new_inode gas who st mode size = some (ino_id, st')) (hino : ino_id ≠ 0) :
    Passes S st st' ∧ (get_record (st'.get gas.INODE_LIST_START) ino_id).i_size = 0 ∧
      (get_record (st'.get gas.INODE_LIST_START) ino_id).i_blkaddr blkaddr_0 ≠ 0 := by
  have hpos : gas.INODE_LIST_START ≠ 0 := by
    simp only [FilesysParam.INODE_LIST_START, FilesysParam.IAM_BLOCK_START, BAM_BLOCK_START]
    omega
  obtain ⟨st1, st2, st3, n, e1, e2, h1, h2, h3, hn0, h4, hsize, hblk⟩ := new_inode_calls h hino
  obtain ⟨hp2, hc2⟩ := get_inode_passes (S := S) h2
  obtain ⟨hp3, -⟩ := allocate_blk_loop_passes (S := S) (Nat.succ_pos 0) h3
  have hc3 := hp3.keeps _ hc2
  have hp4 : Passes S _ _ := bc_edit_passes (f := e1) (fun hz => absurd hz hpos) hc3
  have hc4 := hp4.keeps _ hc3
  have hp5 : Passes S _ _ := bc_edit_passes (f := e2) (fun hz => absurd hz hpos) hc4
  exact ⟨(((((allocate_inode_passes h1).trans hp2).trans hp3).trans hp4).trans hp5).trans
    (bc_write_passes h4 (hp5.keeps _ hc4)), hsize, hblk ▸ hn0⟩

/-- An entry stays within its 260 bytes. -/
theorem put_dentry_outside {offset : Nat} {name : List UInt8} {new_ino : Nat} {block : Mem} {a : Nat}
    (h : a < offset ∨ offset + 260 ≤ a) : put_dentry offset name new_ino block a = block a := by
  simp only [put_dentry, GAS_MAX_NAME_LEN]
  rw [putLe32_outside (by omega), Function.update_of_ne (by omega), strncpy_outside (by omega)]

/-- Behind a name of one byte comes padding. -/
theorem put_dentry_padding (new_ino : Nat) (block : Mem) {a : Nat} (h1 : 1 ≤ a) (h2 : a < 256) :
    put_dentry 0 [46] new_ino block a = 0 := by
  simp only [put_dentry, GAS_MAX_NAME_LEN]
  rw [putLe32_outside (by omega)]
  rcases Nat.eq_or_lt_of_le (Nat.le_of_lt_succ h2) with rfl | hlt
  · exact Function.update_self _ _ _
  · have hname : cstr (ofList [46]) 0 (256 - 1) = [46] := cstr_ofList (by decide)
    rw [Function.update_of_ne (by omega), strncpy, if_pos ⟨Nat.zero_le a, by omega⟩, hname]
    exact List.getD_eq_default _ _ h1

/-- A word under the padding of the first entry is zeroed; a word behind the entry stays. -/
theorem le32_put_dentry (new_ino : Nat) (block : Mem) {off : Nat}
    (h : 1 ≤ off ∧ off + 4 ≤ 256 ∨ 260 ≤ off) :
    le32 (put_dentry 0 [46] new_ino block) off = 0 ∨
      le32 (put_dentry 0 [46] new_ino block) off = le32 block off := by
  rcases h with ⟨h1, h2⟩ | h
  · exact Or.inl (le32_zero fun k hk => put_dentry_padding new_ino block (by omega) (by omega))
  · exact Or.inr (le32_congr fun k hk => put_dentry_outside (by omega))

/-- The first entry of a directory leaves the size of an empty record at 0, even if it goes over it. -/
theorem i_size_put_dentry {block : Mem} {ino_id : Nat} (new_ino : Nat)
    (h : (get_record block ino_id).i_size = 0) :
    (get_record (put_dentry 0 [46] new_ino block) ino_id).i_size = 0 := by
  have hoff : sizeof_gas_inode * ino_id + 4 * (3 : Fin 16).val = 64 * ino_id + 12 := rfl
  change le32 _ (sizeof_gas_inode * ino_id + 4 * (3 : Fin 16).val) = 0 at h ⊢
  rw [hoff] at h ⊢
  rcases @le32_put_dentry new_ino block (64 * ino_id + 12) (by omega) with hz | he
  · exact hz
  · rw [he, h]

/-- The first entry of a directory leaves the first block of a record, or zeroes it. -/
theorem first_block_put_dentry (block : Mem) (ino_id new_ino : Nat) :
    (get_record (put_dentry 0 [46] new_ino block) ino_id).i_blkaddr blkaddr_0 ≤
      (get_record block ino_id).i_blkaddr blkaddr_0 := by
  have hoff : sizeof_gas_inode * ino_id + 4 * (7 : Fin 16).val = 64 * ino_id + 28 := rfl
  change le32 _ (sizeof_gas_inode * ino_id + 4 * (7 : Fin 16).val) ≤
    le32 _ (sizeof_gas_inode * ino_id + 4 * (7 : Fin 16).val)
  rw [hoff]
  rcases @le32_put_dentry new_ino block (64 * ino_id + 28) (by omega) with hz | he
  · rw [hz]
    exact Nat.zero_le _
  · rw [he]

theorem GasInode.Fits.grow {ino : GasInode} (h : ino.Fits) : (GasFs.grow ino).Fits :=
  GasInode.fits_of_fields (h 1) (h 2) (u32_lt _) (h 4) (h 5) (h 6) h.i_blkaddr

/-- **`gas_add_dentry`** passes a property that its entry keeps, and the record it leaves has grown
from what the entry left of it.  The record is read again after the entry was written, since the
entry may have gone over it. -/
theorem gas_add_dentry_passes {ino_id new_ino : Nat} {name : List UInt8}
    (hc : st.Cached gas.INODE_LIST_START)
    (h : gas_add_dentry gas st ino_id name new_ino = some st')
    (hS : let ino := get_record (st.get gas.INODE_LIST_START) ino_id
      u32 (ino.i_blkaddr blkaddr_0 + ino.i_size / GAS_BLOCK_SIZE) = 0 →
        ∀ m, S m → S (put_dentry (ino.i_size % GAS_BLOCK_SIZE) name new_ino m)) :
    Passes S st st' ∧ st'.Cached gas.INODE_LIST_START ∧
      ∃ m, (m = st.get gas.INODE_LIST_START ∨
          m = put_dentry ((get_record (st.get gas.INODE_LIST_START) ino_id).i_size % GAS_BLOCK_SIZE)
            name new_ino (st.get gas.INODE_LIST_START)) ∧
        st'.get gas.INODE_LIST_START = edit_record ino_id grow m := by
  have hpos : gas.INODE_LIST_START ≠ 0 := by
    simp only [FilesysParam.INODE_LIST_START, FilesysParam.IAM_BLOCK_START, BAM_BLOCK_START]
    omega
  simp only [gas_add_dentry] at h
  dsimp only at hS
  split at h
  · exact absurd h (by simp)
  · simp only [Option.bind_eq_bind, Option.bind_eq_some_iff] at h
    obtain ⟨st1, h1, h⟩ := h
    generalize get_record (st.get gas.INODE_LIST_START) ino_id = ino at *
    generalize u32 (ino.i_blkaddr blkaddr_0 + ino.i_size / GAS_BLOCK_SIZE) = n at *
    have hr := bc_read_reads h1
    have he2 := bc_edit_edits (put_dentry (ino.i_size % GAS_BLOCK_SIZE) name new_ino) hr.cached
    have hc2 := (he2.cached _).mpr (hr.keeps _ hc)
    have he3 := bc_edit_edits (edit_record ino_id grow) hc2
    have hp2 : Passes S _ _ := bc_edit_passes hS hr.cached
    have hp3 : Passes S _ _ := bc_edit_passes (f := edit_record ino_id grow)
      (fun hz => absurd hz hpos) hc2
    have hc3 := (he3.cached _).mpr ((he2.cached _).mpr hr.cached)
    have hm := bc_write_marks h hc3
    refine ⟨(((bc_read_passes h1).trans hp2).trans hp3).trans (bc_write_passes h hc3),
      (hm.cached _).mpr ((he3.cached _).mpr hc2), _, ?_, (hm.get _).trans ((he3.get _).trans (if_pos rfl))⟩
    rw [he2.get, hr.get]
    split_ifs
    · exact Or.inr rfl
    · exact Or.inl rfl

/-- **`make_rootdir`** passes every property that an entry at byte 260 keeps. -/
theorem make_rootdir_passes {who : Caller} (h : make_rootdir gas who st = some st')
    (hS : ∀ name new_ino m, S m → S (put_dentry 260 name new_ino m)) : Passes S st st' := by
  simp only [make_rootdir, Option.bind_eq_bind, Option.bind_eq_some_iff] at h
  obtain ⟨⟨ino_id, st1⟩, h1, h⟩ := h
  dsimp only at h
  split at h
  · exact absurd h (by simp)
  · next hino =>
    simp only [Option.bind_eq_some_iff] at h
    obtain ⟨st2, h2, st3, h3, h4⟩ := h
    obtain ⟨hp1, hsize, hblk⟩ := new_inode_passes (S := S) h1 hino
    obtain ⟨hp2, hc2⟩ := get_inode_passes (S := S) h2
    have hget : st2.get gas.INODE_LIST_START = st1.get gas.INODE_LIST_START :=
      (bc_read_reads (get_inode_reads h2)).get _
    rw [← hget] at hsize hblk
    have hfit := get_record_fits (st2.get gas.INODE_LIST_START) ino_id
    obtain ⟨hp3, hc3, m, hm, hget3⟩ := gas_add_dentry_passes (S := S) hc2 h3 fun hz => by
      rw [hsize, Nat.zero_div, Nat.add_zero, u32_of_lt (hfit.i_blkaddr _)] at hz
      exact absurd hz hblk
    rw [hsize, Nat.zero_mod] at hm
    -- whether or not the first entry went over the record, its size is 0 before it grows
    have hsize3 : (get_record m ino_id).i_size = 0 := by
      rcases hm with rfl | rfl
      · exact hsize
      · exact i_size_put_dentry _ hsize
    have hsize4 : (get_record (st3.get gas.INODE_LIST_START) ino_id).i_size = 260 := by
      rw [hget3, get_edit_record]
      · simp only [grow, hsize3]
        decide
      · exact (get_record_fits m ino_id).grow
    obtain ⟨hp4, -⟩ := gas_add_dentry_passes (S := S) hc3 h4 fun _ => by
      rw [hsize4]
      exact hS _ _
    exact ((hp1.trans hp2).trans hp3).trans hp4

end Root

/-! ## 3. The whole program

The direct writes begin with block 1 or later, so they leave block 0 (`init_alloc_map_loop_zero`,
`init_inode_list_loop_zero`), and `make_rootdir` passes the superblock on. -/

section Direct

variable {dev dev' : Dev}

/-- The maps lie behind block 0. -/
theorem init_alloc_map_loop_zero {maps cnt : Nat} : ∀ {n i preallocated block : Nat}
    {dev dev' : Dev}, 0 < block →
    init_alloc_map_loop maps cnt n i preallocated block dev = some dev' → dev' 0 = dev 0 := by
  intro n
  induction n with
  | zero =>
    intro i preallocated block dev dev' _ h
    obtain rfl := Option.some.inj h
    rfl
  | succ n ih =>
    intro i preallocated block dev dev' hpos h
    simp only [init_alloc_map_loop, Option.bind_eq_bind, Option.bind_eq_some_iff] at h
    obtain ⟨dev1, hw, h⟩ := h
    obtain ⟨-, rfl⟩ := write_block_eq_some.mp hw
    rw [ih (Nat.succ_pos block) h, Function.update_of_ne hpos.ne]

/-- So does the inode list. -/
theorem init_inode_list_loop_zero : ∀ {n block : Nat} {dev dev' : Dev}, 0 < block →
    init_inode_list_loop n block dev = some dev' → dev' 0 = dev 0 := by
  intro n
  induction n with
  | zero =>
    intro block dev dev' _ h
    obtain rfl := Option.some.inj h
    rfl
  | succ n ih =>
    intro block dev dev' hpos h
    simp only [init_inode_list_loop, Option.bind_eq_bind, Option.bind_eq_some_iff] at h
    obtain ⟨dev1, hw, h⟩ := h
    obtain ⟨-, rfl⟩ := write_block_eq_some.mp hw
    rw [ih (Nat.succ_pos block) h, Function.update_of_ne hpos.ne]

end Direct

/-- **The superblock on every finished device** is the one `init_super_block` wrote.  There is no
condition on the size: this holds of a device of ten blocks as well. -/
theorem mkfs_super {who : Caller} {size : Nat} {dev img : Dev}
    (h : mkfs_main who size dev = some img) :
    super_block_of (img 0) = init_super_block (filesys_param size) := by
  have hpos : 0 < (filesys_param size).IAM_BLOCK_START := by
    simp only [FilesysParam.IAM_BLOCK_START, BAM_BLOCK_START]
    omega
  simp only [mkfs_main, Option.bind_eq_bind, Option.bind_eq_some_iff] at h
  obtain ⟨dev1, h1, dev2, h2, dev3, h3, dev4, h4, st1, hroot, st2, hsync, himg⟩ := h
  obtain rfl := Option.some.inj himg
  generalize hbuf : super_block_buffer (init_super_block (filesys_param size)) = buffer at h1
  have hzero : dev4 0 = buffer := by
    obtain ⟨-, rfl⟩ := write_block_eq_some.mp h1
    rw [init_inode_list_loop_zero (Nat.lt_of_lt_of_le hpos (Nat.le_add_right _ _)) h4,
      init_alloc_map_loop_zero hpos h3, init_alloc_map_loop_zero (Nat.succ_pos 0) h2,
      Function.update_self]
  have hpass : Passes (fun m : Mem => ∀ a < 28, m a = buffer a) ⟨dev4, []⟩ st1 :=
    make_rootdir_passes hroot fun name new_ino m hm a ha => by
      rw [put_dentry_outside (by omega), hm a ha]
  have hguard : Mkfs.Guarded (fun m : Mem => ∀ a < 28, m a = buffer a) st1 :=
    hpass.guarded ⟨fun a _ => congrFun hzero a, fun it hit => absurd hit List.not_mem_nil⟩
  have hsuper : ∀ a < 28, st2.dev 0 a = buffer a := by
    simp only [bc_sync] at hsync
    split at hsync
    · exact absurd hsync (by simp)
    · next dev' hloop =>
      obtain rfl := Option.some.inj hsync
      exact bc_sync_loop_guarded hloop hguard
  have hword : ∀ off, off + 4 ≤ 28 → le32 (st2.dev 0) off = le32 buffer off := fun off hoff =>
    le32_congr fun k hk => hsuper _ (by omega)
  rw [← super_block_of_mkfs, hbuf]
  simp only [super_block_of]
  rw [hword 0 (by decide), hword 4 (by decide), hword 8 (by decide), hword 12 (by decide),
    hword 16 (by decide), hword 20 (by decide), hword 24 (by decide)]

/-! ## 4. What gets mounted

`Host` is the kernel's side of the device, which may hand out blocks of any size; `Host.Holds` says
that what it hands out is the image.  A mount then reads back the superblock, computes the layout of
`mkfs.gas` from it, and finds the root. -/

/-- A host with a formatted device: block 0, read before the block size is set, and all blocks of
`GAS_BLOCK_SIZE` bytes.  The blocks have the size that the kernel has set, which is the one of the
superblock. -/
structure Host.Holds (host : Host) (img : Dev) : Prop where
  super : host.super = img 0
  blocks : host.blocks GAS_BLOCK_SIZE = img
  sizes : host.BlockSizes

/-- **A volume just mounted** from a device of `size` bytes that `mkfs.gas` formatted.  The host,
the kernel's answers and the caller are any for which both succeed. -/
def FreshMount (size : Nat) (v : Vol) : Prop :=
  ∃ who dev₀ img dev host env root, mkfs_main who size dev₀ = some img ∧ Host.Holds host img ∧
    (gas_fill_super dev host env).result = .ok (v, root)

/-- The mounted volume shows the image.  It says of the maps what `Image` says of their blocks. -/
structure ShowsImage (size : Nat) (v : Vol) (n : Nat) : Prop where
  sbi : v.sbi = mkfs_sbi size
  bits : v.s_blocksize_bits = 12
  fits : (filesys_param size).Fits
  large : 256 ≤ (filesys_param size).blk_cnt
  zone : (filesys_param size).data_st ≤ n
  room : n + 5 ≤ (filesys_param size).blk_cnt
  offset : offset_ok n
  bam : ∀ b < (filesys_param size).bam_blk * 32768, v.inUse b = decide (b < (filesys_param size).data_st ∨
    (filesys_param size).blk_cnt ≤ b ∨ (n ≤ b ∧ b < n + 5))
  iam : ∀ ino < (filesys_param size).iam_blk * 32768, v.inodeInUse ino =
    decide (ino ≤ 1 ∨ (filesys_param size).ino_cnt ≤ ino)

section Mounted

variable {who : Caller} {size n : Nat} {dev₀ img : Dev} {dev : DevCodec} {host : Host} {env : Env}
  {v : Vol} {root : Inode}

/-- **A mount of an image**: the volume with the maps of the image, and the inode of the root's
record.  `tick` and `rdev` are what the mount leaves behind beside the image. -/
theorem Image.mounted (himg : Image who (filesys_param size) dev₀ img n) (hok : offset_ok n)
    (hlarge : 256 ≤ (filesys_param size).blk_cnt) (hhost : host.Holds img)
    (h : (gas_fill_super dev host env).result = .ok (v, root)) :
    ∃ hb hi tick rdev, v = { mounted_vol (mkfs_sbi size) hb hi 12 img env with tick := tick } ∧
      root = gas_set_inode (gas_inode_fill (iget_locked_new GAS_ROOT_INO) (root_record who n 520))
        rdev := by
  obtain ⟨-, bits, hb, hi, hbits, hroot⟩ := gas_fill_super_ok h
  have hf := fits_of_offset_ok (offset_ok_of_le hok himg.zone)
  have hsuper : super_block_of host.super = init_super_block (filesys_param size) := by
    rw [hhost.super, himg.super, super_block_of_mkfs]
  have h12 : bits = 12 := by
    obtain ⟨hsize, hlo, hhi⟩ := hhost.sizes _ _ hbits
    rw [hsuper] at hsize
    simp only [init_super_block] at hsize
    obtain rfl | rfl | rfl | rfl : bits = 9 ∨ bits = 10 ∨ bits = 11 ∨ bits = 12 := by omega
    all_goals simp_all
  have hblocks : host.blocks (super_block_of host.super).s_blocksize = img := by
    rw [hsuper]
    exact hhost.blocks
  have hsbi : gas_super_block_fill (super_block_of host.super) = mkfs_sbi size := by
    rw [hsuper]
    rfl
  rw [hblocks, h12] at hroot
  generalize gas_super_block_fill (super_block_of host.super) = sbi at hb hi hroot hsbi
  subst hsbi
  obtain ⟨tick, hv⟩ := make_root_ok hroot
  obtain ⟨rdev, hr⟩ := make_root_inode hroot
  have hcnt := (filesys_param_counts size).2.1
  have hino := (ino_blk_pos hlarge).1
  rw [himg.disk_inode hf hb hi env (by simp only [GAS_ROOT_INO]; omega), if_pos rfl] at hr
  exact ⟨hb, hi, tick, rdev, hv, hr⟩

/-- A mount of an image shows it. -/
theorem Image.shows (himg : Image who (filesys_param size) dev₀ img n) (hok : offset_ok n)
    (hlarge : 256 ≤ (filesys_param size).blk_cnt) (hhost : host.Holds img)
    (h : (gas_fill_super dev host env).result = .ok (v, root)) : ShowsImage size v n := by
  obtain ⟨hb, hi, tick, -, rfl, -⟩ := himg.mounted hok hlarge hhost h
  have hf := fits_of_offset_ok (offset_ok_of_le hok himg.zone)
  obtain ⟨hbam, hiam, -⟩ := mkfs_sbi_of_fits hf
  refine ⟨rfl, rfl, hf, hlarge, himg.zone, himg.room, hok, fun b hlt => ?_, fun ino hlt => ?_⟩
  · have hbit := himg.bam (b / 32768) (by omega) (b % 32768) (by omega)
    simp only [Vol.inUse, mounted_vol, (mkfs_sbi_per_block size).2.1]
    rw [hbit]
    exact decide_eq_decide.mpr (by omega)
  · have hbit := himg.iam (ino / 32768) (by omega) (ino % 32768) (by omega)
    simp only [Vol.inodeInUse, mounted_vol, hbam]
    exact hbit.trans (decide_eq_decide.mpr (by omega))

/-- A device of fewer than 256 blocks is not mounted. -/
theorem mounted_large (hmk : mkfs_main who size dev₀ = some img) (hhost : host.Holds img)
    (hmount : (gas_fill_super dev host env).result = .ok (v, root)) :
    256 ≤ (filesys_param size).blk_cnt := by
  obtain ⟨hr, -⟩ := gas_fill_super_ok hmount
  simp only [Refused, not_or, hhost.super, mkfs_super hmk] at hr
  obtain ⟨-, -, -, -, -, -, hino⟩ := hr
  by_contra hlt
  refine hino ?_
  have hz : (filesys_param size).ino_blk = 0 := by
    simp only [filesys_param, GAS_BLOCK_SIZE, INODES_PER_BLOCK, sizeof_gas_inode] at hlt ⊢
    omega
  simp only [init_super_block, hz]
  rfl

/-- **Of every device it mounts the kernel sees what `mkfs.gas` wrote.** -/
theorem FreshMount.shows (h : FreshMount size v) : ∃ n, ShowsImage size v n := by
  obtain ⟨who, dev₀, img, dev, host, env, root, hmk, hhost, hmount⟩ := h
  have hlarge := mounted_large hmk hhost hmount
  obtain ⟨n, hok, himg⟩ := mkfs_image hlarge hmk
  exact ⟨n, himg.shows hok hlarge hhost hmount⟩

/-- The kernel gets past the superblock of an image. -/
theorem Image.not_refused (himg : Image who (filesys_param size) dev₀ img n) (hok : offset_ok n)
    (hlarge : 256 ≤ (filesys_param size).blk_cnt) (hhost : host.Holds img)
    (hset : host.sb_set_blocksize GAS_BLOCK_SIZE ≠ none) (hmem : env.mem 0 = true)
    (hread : env.bread 1 = true) : ¬Refused host env := by
  obtain ⟨hino, hiam, hbam⟩ := ino_blk_pos hlarge
  have hf := fits_of_offset_ok (offset_ok_of_le hok himg.zone)
  obtain ⟨hsb, hsi, -⟩ := mkfs_sbi_of_fits hf
  have hst : (filesys_param size).data_st = 1 + (filesys_param size).bam_blk +
    (filesys_param size).iam_blk + (filesys_param size).ino_blk := rfl
  have hdata := hf.data_st
  have hsn : (init_super_block (filesys_param size)).s_inode_blocks =
      (filesys_param size).ino_blk := u32_of_lt (by omega)
  replace hsb : (init_super_block (filesys_param size)).s_bam_blocks = _ := hsb
  replace hsi : (init_super_block (filesys_param size)).s_iam_blocks = _ := hsi
  have hsuper : super_block_of host.super = init_super_block (filesys_param size) := by
    rw [hhost.super, himg.super, super_block_of_mkfs]
  simp only [Refused, not_or, hsuper, hsb, hsi, hsn, hmem, hread]
  exact ⟨by decide, by decide, fun hne => hne rfl, hset, by omega, by omega, by omega⟩

/-- A kernel in which every request succeeds. -/
def calm_env : Env := ⟨fun _ => true, fun _ => true, fun _ _ => 0, fun _ => true, fun _ => 0, 0, 0⟩

/-- A host that reads the image in blocks of 4096 bytes. -/
def plain_host (img : Dev) : Host :=
  ⟨img 0, fun _ => img, fun s => if s = 4096 then some 12 else none⟩

/-- It holds what it was given. -/
theorem plain_host_holds (img : Dev) : (plain_host img).Holds img := by
  refine ⟨rfl, rfl, fun s bits h => ?_⟩
  simp only [plain_host] at h
  split_ifs at h with hs
  obtain rfl := Option.some.inj h
  rw [hs]
  decide

/-- A device whose data zone begins inside a map block can be formatted and mounted, and the root
directory gets the first five blocks of the zone.  It is used for the devices on which a run is
shown to be possible. -/
theorem fresh_mount (size : Nat) (hlarge : 256 ≤ (filesys_param size).blk_cnt)
    (hroom : (filesys_param size).data_st + 5 ≤ (filesys_param size).blk_cnt)
    (hpos : (filesys_param size).data_st % 32768 ≠ 0)
    (hfit : (filesys_param size).data_st % 32768 + 5 ≤ 32768)
    (hok : offset_ok (filesys_param size).data_st) :
    ∃ v, FreshMount size v ∧ ShowsImage size v (filesys_param size).data_st := by
  obtain ⟨img, hmk, himg⟩ := mkfs_isSome ⟨0, 0, 0⟩ (fun _ _ => 0) hlarge hroom hpos hfit hok
  have hhost := plain_host_holds img
  have hr : ¬Refused (plain_host img) calm_env :=
    himg.not_refused hok hlarge hhost (by simp [plain_host]) rfl rfl
  obtain ⟨v, root, h⟩ := (gas_fill_super_started linux_dev hr).served.mpr
    ⟨fun _ _ => rfl, rfl, rfl, rfl⟩
  exact ⟨v, ⟨_, _, img, linux_dev, _, calm_env, root, hmk, hhost, h⟩, himg.shows hok hlarge hhost h⟩

end Mounted

end GasFs
