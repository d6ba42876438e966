/-
# A directory with room to grow

Adding and deleting entries fails only for lack of a block, on a failed read, or on a name that
is there already.  `Roomy` says that the first two cannot happen for some number of calls: while a
directory stays within its six direct blocks and there are free blocks, `gas_add_link` of an
absent name succeeds (`Roomy.add`), and so do `gas_delete_entry` (`Roomy.delete`) and
`gas_make_empty` (`Roomy.make_empty`).

The number in `Roomy` is the number of calls that may still be made: each takes one block at most,
as the pages of the directory are direct blocks.  This is the way the witnesses of the directory
results are built, call by call on a volume of 256 blocks, so that a directory with a given table
exists and is reached by the functions of the source.

The volume is small on purpose, and written out; everything else here is for any volume with room.
-/
import GasFs.Dir.Update
import GasFs.Itree.Direct

namespace GasFs

open Bytes SlotTable

/-- Reads and allocations of memory succeed, and at least `k` blocks are free.  The geometry is that
of `mkfs.gas`, with the block map padded.  Blocks that may be taken by others in between are no
concern: `k` counts those that are free now. -/
structure Roomy (v : Vol) (k : Nat) : Prop where
  geometry : TreeGeometry v
  padded : v.MapPadded
  direct : DIRECT ≤ v.sbi.s_nblocks
  pgread : ∀ n, v.env.pgread n = true
  mem : ∀ n, v.env.mem n = true
  free : ∃ l : List Nat, l.Nodup ∧ k ≤ l.length ∧
    ∀ b ∈ l, b < v.sbi.s_bam_blocks * 32768 ∧ v.inUse b = false

theorem Roomy.ticked {v : Vol} {k : Nat} (h : Roomy v k) (t : Nat) : Roomy { v with tick := t } k :=
  ⟨⟨{ h.geometry.toGeometry with }, h.geometry.nblocks_le⟩, h.padded, h.direct, h.pgread, h.mem,
    h.free⟩

theorem Roomy.mono {v : Vol} {k j : Nat} (h : Roomy v k) (hj : j ≤ k) : Roomy v j := by
  obtain ⟨l, hnd, hlen, hl⟩ := h.free
  exact { h with free := ⟨l, hnd, hj.trans hlen, hl⟩ }

theorem Roomy.not_full {v : Vol} {k : Nat} (h : Roomy v (k + 1)) : ¬v.BamFull := by
  intro hfull
  obtain ⟨l, -, hlen, hl⟩ := h.free
  match l, hlen, hl with
  | [], hlen, _ => simp at hlen
  | b :: l, _, hl =>
    obtain ⟨hb, hfree⟩ := hl b List.mem_cons_self
    have hbits := h.geometry.bits_per_block
    have hset := hfull (b / 32768) (by omega) (b % 32768) (by omega)
    rw [h.geometry.inUse, hset] at hfree
    exact absurd hfree (by simp)

/-- Taking a free block leaves room for one less.  The list of free blocks loses the one taken;
which one the allocator takes does not matter. -/
theorem Roomy.take {v : Vol} {k : Nat} (h : Roomy v (k + 1)) (b : Nat)
    (hint : Fin v.sbi.s_bam_blocks) :
    Roomy { v with bam := write_bit v.bam (b / 32768) (b % 32768) true, s_bam_last := hint } k := by
  obtain ⟨l, hnd, hlen, hl⟩ := h.free
  have hmark : ∀ x, Vol.inUse { v with
        bam := write_bit v.bam (b / 32768) (b % 32768) true, s_bam_last := hint } x =
      if x = b then true else v.inUse x := h.geometry.inUse_write b true hint
  refine ⟨⟨{ h.geometry.toGeometry with }, h.geometry.nblocks_le⟩, fun x hx hnz => ?_, h.direct,
    h.pgread, h.mem, l.erase b, hnd.erase b, ?_, fun x hx => ?_⟩
  · rw [hmark]
    split
    · rfl
    · exact h.padded x hx hnz
  · have := List.length_erase_add_one (a := b) (l := l)
    by_cases hb : b ∈ l
    · have := this hb
      omega
    · rw [List.erase_of_not_mem hb]
      omega
  · obtain ⟨hne, hmem⟩ := hnd.mem_erase_iff.mp hx
    obtain ⟨h1, h2⟩ := hl x hmem
    exact ⟨h1, by rw [hmark, if_neg hne]; exact h2⟩

/-- A chunk of a direct block can be prepared: it is mapped, or it takes one of the free blocks.
Either way no indirect block is read, so no read can fail. -/
theorem Roomy.prepare {c : Ctx} {k : Nat} (h : Roomy c.v (k + 1)) {pos : Nat}
    (hp : pos / 4096 < DIRECT) (len : Nat) :
    ∃ c', gas_dir_prepare_chunk c pos len = (c', none) ∧ Roomy c'.v k := by
  have hd := gas_get_block_direct (c := c) h.geometry h.padded hp
    (lt_of_lt_of_le hp h.direct)
  unfold gas_dir_prepare_chunk __block_write_begin
  generalize gas_get_block c (pos / 4096) true = r at hd
  cases hd with
  | found hne => exact ⟨_, rfl, h.mono (by omega)⟩
  | new b hint hz hzone hfree => exact ⟨_, rfl, h.take b hint⟩
  | full hz hfull => exact absurd hfull h.not_full

/-- A name that does not occur in front of the first free slot goes there, if the pages can be read. -/
theorem gas_add_link_got_it {c : Ctx} (hd : DirOk c.inode) {name : List UInt8} (hn : IsName name)
    (ino : Nat) (hpg : ∀ n, c.v.env.pgread n = true)
    (habs : locate (c.inode.slots.take (hole c.inode.slots)) name = none) :
    ∃ c1, Cleared c c1 ∧ gas_add_link c name ino =
      got_it c1 (slotPos (hole c.inode.slots)).1 (slotPos (hole c.inode.slots)).2 name ino := by
  have hscan := gas_add_link_scan hd hn ino
  generalize gas_add_link c name ino = r at hscan
  cases hscan with
  | unread c1 ht n hp hr =>
    rw [hpg] at hr
    exact absurd hr (by simp)
  | present c1 ht t v hs hp =>
    refine absurd ?_ (not_slot_of_locate_none habs t v)
    rw [List.getElem?_take_of_lt, hs]
    -- the slots in front of the entry are in use, so the hole is behind it
    by_contra hge
    rcases getElem?_hole c.inode.slots with hh | hh
    · rcases Nat.lt_or_eq_of_le (Nat.le_of_not_lt hge) with hlt | heq
      · obtain ⟨e, he, -⟩ := hp _ hlt
        rw [hh] at he
        simp at he
      · rw [heq, hs] at hh
        simp at hh
    · have := (List.getElem?_eq_some_iff.mp hs).1
      omega
  | free c1 hc t ht hp _ _ =>
    rw [hp.hole ht]
    exact ⟨c1, hc, rfl⟩

/-- **A name that does not occur in front of the first free slot can be added**, as long as that
slot is on one of the first six pages.  The loop passes the slots in front one by one, comparing
names, and writes into that one. -/
theorem Roomy.add {c : Ctx} {k : Nat} (h : Roomy c.v (k + 1)) (hd : DirOk c.inode)
    {name : List UInt8} (hn : IsName name) (ino : Nat)
    (habs : locate (c.inode.slots.take (hole c.inode.slots)) name = none)
    (hlt : (slotPos (hole c.inode.slots)).1 < DIRECT) :
    ∃ c', gas_add_link c name ino = (c', none) ∧ Roomy c'.v k := by
  obtain ⟨c1, hc, he⟩ := gas_add_link_got_it hd hn ino h.pgread habs
  obtain ⟨tick, hv⟩ := hc.vol
  have hr1 : Roomy c1.v (k + 1) := by rw [hv]; exact h.ticked tick
  rw [he]
  generalize hole c.inode.slots = t at hlt
  have hle := slotPos_le t
  have hpage : (PAGE_CACHE_SIZE * (slotPos t).1 + (slotPos t).2) / 4096 < DIRECT := by
    show (4096 * (slotPos t).1 + (slotPos t).2) / 4096 < 6
    have : (slotPos t).1 < 6 := hlt
    omega
  obtain ⟨c2, hprep, hr2⟩ := hr1.prepare hpage sizeof_gas_dir_entry
  refine ⟨_, by rw [got_it, hprep]; rfl, ?_⟩
  rw [(commit_spec c2 _ _ _ _).1]
  exact hr2

/-- A slot can be freed.  It takes a block only if the page has none. -/
theorem Roomy.delete {c : Ctx} {k : Nat} (h : Roomy c.v (k + 1)) {t : Nat}
    (hlt : (slotPos t).1 < DIRECT) :
    ∃ c', gas_delete_entry c (slotPos t).1 (slotPos t).2 = (c', none) ∧ Roomy c'.v k := by
  have hle := slotPos_le t
  have hpage : (PAGE_CACHE_SIZE * (slotPos t).1 + (slotPos t).2) / 4096 < DIRECT := by
    show (4096 * (slotPos t).1 + (slotPos t).2) / 4096 < 6
    have : (slotPos t).1 < 6 := hlt
    omega
  obtain ⟨c2, hprep, hr2⟩ := h.prepare hpage sizeof_gas_dir_entry
  refine ⟨_, by rw [gas_delete_entry, hprep]; rfl, ?_⟩
  rw [(commit_spec c2 _ _ _ _).1]
  exact hr2

/-- The first page of a new inode can be made a directory.  It takes one block, the first of the new
inode. -/
theorem Roomy.make_empty {c : Ctx} {k : Nat} (h : Roomy c.v (k + 1)) (hz : c.inode.blkaddr 0 = 0)
    (dir : Nat) : ∃ c', gas_make_empty c dir = (c', none) ∧ Roomy c'.v k := by
  have h1 := h.ticked (c.v.tick + 1)
  have hd := gas_get_block_direct (c := { c with v := { c.v with tick := c.v.tick + 1 } })
    h1.geometry h1.padded (n := 0) (by decide) (lt_of_lt_of_le (by decide) h1.direct)
  have hmem := h.mem c.v.tick
  unfold gas_make_empty __block_write_begin
  simp only [hmem, Bool.true_eq_false, if_false, Nat.zero_div]
  generalize gas_get_block { c with v := { c.v with tick := c.v.tick + 1 } } 0 true = r at hd
  cases hd with
  | found hne => exact absurd hz hne
  | new b hint hz' hzone hfree =>
    simp only [ne_eq, not_true_eq_false, if_false, Bool.true_or, if_true]
    refine ⟨(gas_dir_commit_chunk none _ _ _).1, rfl, ?_⟩
    rw [gas_dir_commit_chunk_eq]
    exact h1.take b hint
  | full hz' hfull => exact absurd hfull h1.not_full

/-! ## A volume of 256 blocks

A disk of one megabyte, as `mkfs.gas` lays it out. -/

/-- The volume of 256 blocks: four of metadata, five taken for the root directory, and the rest
free.  The environment grants every request. -/
def plain_vol : Vol where
  sbi := gas_super_block_fill ⟨MAGIC_NUMBER, 4096, 1, 1, 1, 256, 64⟩
  s_blocksize_bits := 12
  s_bam_last := ⟨0, by decide⟩
  s_iam_last := ⟨0, by decide⟩
  bam := fun _ bit => decide (bit < 9 ∨ 256 ≤ bit)
  iam := fun _ bit => decide (bit < 2 ∨ 64 ≤ bit)
  words := fun _ _ => 0
  env := ⟨fun _ => true, fun _ => true, fun _ _ => 0, fun _ => true, fun _ => 0, 0, 0⟩
  tick := 0

theorem plain_geometry : TreeGeometry plain_vol where
  blocksize := rfl
  blocksize_bits := rfl
  bits_per_block := rfl
  inodes_per_block := rfl
  data_pos := by show 0 < 4; omega
  covers := by show 256 ≤ 1 * 32768; omega
  nblocks_lt := by show 256 < 4294967296; omega
  nblocks_le := by show 256 ≤ 1073741824; omega

theorem plain_padded : plain_vol.MapPadded := by
  intro b hb hz
  have hb' : b < 1 * 32768 := hb
  have hz' : ¬(4 ≤ b ∧ b < 256) := hz
  show decide (b % 32768 < 9 ∨ 256 ≤ b % 32768) = true
  rw [decide_eq_true_eq]
  omega

theorem plain_roomy : Roomy plain_vol 247 where
  geometry := plain_geometry
  padded := plain_padded
  direct := by show 6 ≤ 256; omega
  pgread _ := rfl
  mem _ := rfl
  free := by
    refine ⟨List.range' 9 247, List.nodup_range', by rw [List.length_range'], fun b hb => ?_⟩
    obtain ⟨h1, h2⟩ := List.mem_range'_1.mp hb
    refine ⟨by show b < 1 * 32768; omega, ?_⟩
    show decide (b % 32768 < 9 ∨ 256 ≤ b % 32768) = false
    rw [decide_eq_false_iff_not]
    omega

/-- A new directory inode on it. -/
def plain_dir : Ctx where
  v := plain_vol
  inode := ⟨2, S_IFDIR, 2, 0, 0, 0, 0, 0, 0, 0, .gas_dir_inode_ops, fun _ => 0, fun _ _ => 0, false⟩
  nr := 0

/-! ## Directories written out

Directories given by their entries, for witnesses that do not need a run. -/

/-- The page of a directory with more entries, the last one first. -/
def filled_page (ino parent : Nat) : List (List UInt8 × Nat) → Mem
  | [] => empty_page ino parent
  | e :: l => write_entry (filled_page ino parent l) (260 * (2 + l.length)) e.1 e.2

/-- The directory `ino` in `parent` with these entries, in block `b`. -/
def filled_dir (ino parent : Nat) (nlink : BitVec 32) (l : List (List UInt8 × Nat)) (b : Nat) :
    Inode where
  i_ino := ino
  i_mode := S_IFDIR
  i_nlink := nlink
  i_uid := 0
  i_gid := 0
  i_size := 260 * (2 + l.length)
  i_atime := 0
  i_mtime := 0
  i_ctime := 0
  i_rdev := 0
  i_op := .gas_dir_inode_ops
  blkaddr i := if i = 0 then b else 0
  pages n := if n = 0 then filled_page ino parent l else fun _ => 0
  dead := false

theorem filled_dir_ok {ino parent b : Nat} {nlink : BitVec 32} :
    ∀ {l : List (List UInt8 × Nat)}, l.length ≤ 13 → (∀ e ∈ l, IsName e.1) →
      DirOk (filled_dir ino parent nlink l b) ∧
        (filled_dir ino parent nlink l b).nslots = 2 + l.length
  | [], _, _ => by
    have hs : (filled_dir ino parent nlink [] b).i_size = 520 := rfl
    obtain ⟨hok, -⟩ := @empty_dir (filled_dir ino parent nlink [] b) ino parent hs rfl
      fun n a hn _ => by
        simp only [filled_dir]
        rw [if_neg (by omega)]
    refine ⟨hok, ?_⟩
    rw [Inode.nslots, hs]
    rfl
  | e :: l, hlen, hname => by
    rw [List.length_cons] at hlen
    obtain ⟨hok, hns⟩ := @filled_dir_ok ino parent b nlink l (by omega)
      fun e' he' => hname e' (List.mem_cons_of_mem e he')
    obtain ⟨hw, hz⟩ := write_entry_spec (filled_page ino parent l) (260 * (2 + l.length))
      (hname e List.mem_cons_self) e.2
    have hpos : slotPos (2 + l.length) = (0, 260 * (2 + l.length)) := by
      have h := slotPos_add (n := 0) (j := 2 + l.length) (by omega)
      rwa [Nat.mul_zero, Nat.zero_add] at h
    have hwrote : Wrote (2 + l.length) (entryOf e.1 e.2) (filled_dir ino parent nlink l b)
        (filled_dir ino parent nlink (e :: l) b) := by
      refine ⟨?_, ?_, fun n a h => ?_⟩
      · rw [Inode.slot, hpos]
        exact hw
      · rw [hpos]
        exact hz
      · rw [hpos] at h
        by_cases hn : n = 0
        · subst hn
          exact write_entry_outside (by simpa using h)
        · simp only [filled_dir, if_neg hn]
    have hsize : (filled_dir ino parent nlink (e :: l) b).i_size =
        max (filled_dir ino parent nlink l b).i_size
          (4096 * (slotPos (2 + l.length)).1 + (slotPos (2 + l.length)).2 + 260) := by
      rw [hpos]
      simp only [filled_dir, List.length_cons]
      omega
    obtain ⟨hok', hns'⟩ := hwrote.dirOk hok (by omega) hsize
    refine ⟨hok', ?_⟩
    rw [hns', hns, List.length_cons]
    omega

end GasFs
