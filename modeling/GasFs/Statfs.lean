/-
# Free blocks and free inodes: `count_free` and `gas_statfs`

`count_free` adds up the clear bits of the first map blocks, as many as its argument `numbits` asks
for.  `gas_count_free_blocks` passes the size of the data zone and one more, although the map starts
at block 0; `gas_count_free_inodes` passes the number of inodes and one more.

So both counts are right only if the number of map blocks so computed is the one there is.
`free_blocks_exact_iff` and `statfs_in_bounds_iff` say when that is, over all states a mounted
volume reaches: the first may be one or more blocks short, the second may be one too many, and then
reads behind the array of map buffers.

A count is made of map blocks as a whole, padding included.  The padding is set, so it adds nothing,
and a count over the right number of blocks is exact in every state (`card_free`).  A count that is
a block short is wrong in every state in which that block has a clear bit; such a state is reached,
by freeing what was allocated there, or is the fresh one.

The two conditions are on the layout alone, as `mkfs.gas` computes it from the size of the device.
The runs are those of the allocator: `BlockCalls` for blocks and `InodeCalls` for inodes.
-/
import GasFs.Mkfs.Super
import GasFs.FileMap
import GasFs.InodeMap

namespace GasFs

open BitArray

/-! ## 1. Counting

The functions, with the elements of the array that they read; an element that the array does not
have has no value. -/

/-- `hweight16` of the word `w` of a map block. -/
def hweight16 (block : Nat → Bool) (w : Nat) : Nat :=
  (List.range 16).countP fun j => block (16 * w + j)

/-- The loop over the words of a map block, from the word `w` on. -/
def count_words (block : Nat → Bool) : Nat → Nat → Nat → Nat
  | 0, _, sum => sum
  | words + 1, w, sum => count_words block words (w + 1) (u32 (sum + (16 - hweight16 block w)))

/-- The loop of `count_free` from the element `i` on: the elements read, and the sum, none when an
element was read that the array does not have. -/
def count_free_loop (map : Nat → Option (Nat → Bool)) (blocksize : Nat) :
    Nat → Nat → Nat → List Nat × Option Nat
  | 0, _, sum => ([], some sum)
  | blocks + 1, i, sum =>
    match map i with
    | none => ([i], none)
    | some block =>
      let (log, sum) :=
        count_free_loop map blocksize blocks (i + 1) (count_words block (blocksize / 2) 0 sum)
      (i :: log, sum)

/-- `count_free`: the number of map blocks is `numbits` divided by the bits of a block, rounded up.
All of them are looked at. -/
def count_free (map : Nat → Option (Nat → Bool)) (blocksize numbits : Nat) :
    List Nat × Option Nat :=
  let d := u32 (blocksize * 8)
  -- DIV_ROUND_UP(numbits, blocksize * 8)
  count_free_loop map blocksize (u32 (numbits + d - 1) / d) 0 0

/-- `s_bam_bh[i]`: the first elements of the array of map buffers.  There is one array for both
maps, so an index that is too large for one reads in the other. -/
def Vol.s_bam_bh (v : Vol) (i : Nat) : Option (Nat → Bool) :=
  if i < v.sbi.s_bam_blocks then some (v.bam i)
  else if i < v.sbi.s_bam_blocks + v.sbi.s_iam_blocks then some (v.iam (i - v.sbi.s_bam_blocks))
  else none

/-- `s_iam_bh[i]`: the elements behind them. -/
def Vol.s_iam_bh (v : Vol) (i : Nat) : Option (Nat → Bool) := v.s_bam_bh (v.sbi.s_bam_blocks + i)

/-- `gas_count_free_blocks`. -/
def gas_count_free_blocks (v : Vol) : List Nat × Option Nat :=
  let bits := u32 (v.sbi.s_nblocks + 4294967296 - v.sbi.s_data_block_start + 1)
  count_free v.s_bam_bh (2 ^ v.s_blocksize_bits) bits

/-- `gas_count_free_inodes`. -/
def gas_count_free_inodes (v : Vol) : List Nat × Option Nat :=
  let bits := u32 (v.sbi.s_ninodes + 1)
  count_free v.s_iam_bh (2 ^ v.s_blocksize_bits) bits

/-- `struct kstatfs`, less the identifier of the device.  Free and available blocks are one number,
as the source has it. -/
structure Kstatfs where
  f_type : Nat
  f_bsize : Nat
  f_blocks : Nat
  f_bfree : Nat
  f_bavail : Nat
  f_files : Nat
  f_ffree : Nat
  f_namelen : Nat
  deriving DecidableEq, Repr

/-- `gas_statfs`. -/
def gas_statfs (v : Vol) : Option Kstatfs := do
  let f_bfree ← (gas_count_free_blocks v).2
  let f_ffree ← (gas_count_free_inodes v).2
  return {
    f_type := v.sbi.s_magic
    f_bsize := 2 ^ v.s_blocksize_bits
    f_blocks := u32 (v.sbi.s_nblocks + 4294967296 - v.sbi.s_data_block_start)
    f_bfree
    f_bavail := f_bfree
    f_files := v.sbi.s_ninodes
    f_ffree
    f_namelen := GAS_MAX_NAME_LEN }

/-! ## 2. The sums

Clear bits of a word, of a block, and of a number of blocks. -/

section Sum

/-- The words of a block give its clear bits. -/
theorem count_words_eq (block : Nat → Bool) : ∀ (words w sum : Nat), sum < 4294967296 →
    count_words block words w sum =
      u32 (sum + clear_count (fun k => block (16 * w + k)) (16 * words)) := by
  intro words
  induction words with
  | zero =>
    intro w sum hsum
    rw [count_words, clear_count, Nat.mul_zero, Nat.count_zero, Nat.add_zero, u32_of_lt hsum]
  | succ words ih =>
    intro w sum hsum
    have hsplit : clear_count (fun k => block (16 * w + k)) (16 * (words + 1)) =
        (16 - hweight16 block w) +
          clear_count (fun k => block (16 * (w + 1) + k)) (16 * words) := by
      have hlen : 16 * (words + 1) = 16 + 16 * words := by omega
      rw [hlen, clear_count_add, hweight16, sub_countP_eq]
      simp only [← Nat.add_assoc, Nat.mul_add, Nat.mul_one]
    rw [count_words, ih _ _ (u32_lt _), hsplit]
    simp only [u32]
    omega

/-- **The blocks give theirs**, as long as the array has them.  The sum is kept in 32 bits, which
the bits of one volume do not fill. -/
theorem count_free_loop_eq {map : Nat → Option (Nat → Bool)} {m : Nat → Nat → Bool} :
    ∀ (blocks i sum : Nat), (∀ j < blocks, map (i + j) = some (m (i + j))) → sum < 4294967296 →
      count_free_loop map 4096 blocks i sum =
        (List.range' i blocks,
          some (u32 (sum + clear_count (fun b => flat 32768 m (i * 32768 + b)) (blocks * 32768)))) := by
  intro blocks
  induction blocks with
  | zero =>
    intro i sum _ hsum
    rw [count_free_loop, clear_count, Nat.zero_mul, Nat.count_zero, Nat.add_zero, u32_of_lt hsum]
    rfl
  | succ blocks ih =>
    intro i sum hmap hsum
    have hhead : map i = some (m i) := hmap 0 (Nat.succ_pos blocks)
    have htail : ∀ j < blocks, map (i + 1 + j) = some (m (i + 1 + j)) := by
      intro j hj
      have := hmap (j + 1) (Nat.succ_lt_succ hj)
      rwa [Nat.add_comm j 1, ← Nat.add_assoc] at this
    have hwords : count_words (m i) (4096 / 2) 0 sum = u32 (sum + clear_count (m i) 32768) := by
      rw [count_words_eq _ _ _ _ hsum]
      simp only [Nat.mul_zero, Nat.zero_add]
    simp only [count_free_loop, hhead, hwords]
    rw [ih (i + 1) _ htail (u32_lt _), clear_count_flat (by norm_num)]
    simp only [List.range'_succ, u32, Prod.mk.injEq, Option.some.injEq, true_and]
    omega

/-- Behind the end of the array there is no sum, and the element is read: the loop does not know the
length of the array. -/
theorem count_free_loop_outside {map : Nat → Option (Nat → Bool)} {blocksize : Nat} :
    ∀ {blocks j : Nat} (i sum : Nat), j < blocks → (∀ j' < j, (map (i + j')).isSome) → map (i + j) = none →
      i + j ∈ (count_free_loop map blocksize blocks i sum).1 ∧
        (count_free_loop map blocksize blocks i sum).2 = none := by
  intro blocks
  induction blocks with
  | zero => exact fun _ _ hj => absurd hj (Nat.not_lt_zero _)
  | succ blocks ih =>
    intro j i sum hj hsome hnone
    cases j with
    | zero =>
      rw [Nat.add_zero] at hnone
      simp [count_free_loop, hnone]
    | succ j =>
      obtain ⟨block, hblock⟩ := Option.isSome_iff_exists.mp (hsome 0 (Nat.succ_pos j))
      rw [Nat.add_zero] at hblock
      have hnext : ∀ j', i + 1 + j' = i + (j' + 1) := fun j' => by omega
      obtain ⟨hmem, hres⟩ := ih (i + 1) (count_words block (blocksize / 2) 0 sum)
        (Nat.lt_of_succ_lt_succ hj)
        (fun j' hj' => by rw [hnext]; exact hsome (j' + 1) (Nat.succ_lt_succ hj'))
        (by rw [hnext]; exact hnone)
      rw [hnext] at hmem
      simp only [count_free_loop, hblock]
      exact ⟨List.mem_cons_of_mem i hmem, hres⟩

end Sum

/-! ## 3. The layout of a mounted volume

What `mkfs.gas` guarantees for every size of a device. -/

/-- What both counts need to know of the layout.  Both maps are as long as they must be and not a
block longer. -/
structure Laid (v : Vol) : Prop where
  geometry : Geometry v
  bam_tight : v.sbi.s_bam_blocks * 32768 < v.sbi.s_nblocks + 32768
  nblocks_lt : v.sbi.s_nblocks < 2147483648
  zone : v.sbi.s_data_block_start < v.sbi.s_nblocks
  ninodes_pos : 0 < v.sbi.s_ninodes
  ninodes_lt : v.sbi.s_ninodes < 2147483648
  iam_covers : v.sbi.s_ninodes ≤ v.sbi.s_iam_blocks * 32768
  iam_tight : v.sbi.s_iam_blocks * 32768 < v.sbi.s_ninodes + 32768

/-- The bits that are no inode's are set: the padding behind the last record.  `mkfs.gas` sets them,
and no call for an inode with a record clears one. -/
def Vol.IamPadded (v : Vol) : Prop :=
  ∀ n, v.sbi.s_ninodes ≤ n → n < v.inoLimit → v.inodeInUse n = true

/-- The inode numbers that have a record and a clear bit. -/
def Vol.freeInodes (v : Vol) : Finset Nat :=
  (Finset.range v.sbi.s_ninodes).filter fun n => v.inodeInUse n = false

section Laid

variable {size n : Nat} {v v' : Vol}

theorem ShowsImage.laid (h : ShowsImage size v n) : Laid v ∧ v.MapPadded ∧ v.IamPadded := by
  obtain ⟨hbam, hiam, hnb, hni, -, hdata⟩ := mkfs_sbi_of_fits h.fits
  obtain ⟨hst, hcnt, hcov, htight, hile, hitight, hquarter⟩ := filesys_param_counts size
  obtain ⟨hg, -⟩ := mkfs_geometry h.fits h.sbi h.bits
  have hoff := h.offset
  have hzone := h.zone
  have hroom := h.room
  have hlarge := h.large
  have hino := (ino_blk_pos hlarge).1
  have hblk : (filesys_param size).blk_cnt < ((filesys_param size).ino_blk + 1) * 256 := by
    simp only [filesys_param, GAS_BLOCK_SIZE, INODES_PER_BLOCK, sizeof_gas_inode]
    omega
  simp only [offset_ok, GAS_BLOCK_SIZE] at hoff
  have hsbi := h.sbi
  rw [← hsbi] at hbam hiam hnb hni hdata
  have hbits := h.bam
  have hibits := h.iam
  generalize filesys_param size = gas at *
  rw [← hbam, ← hnb] at htight
  rw [← hiam, ← hni] at hitight
  rw [← hbam] at hbits
  rw [← hiam] at hibits
  refine ⟨⟨hg, htight, by omega, by omega, by omega, by omega, by omega, hitight⟩,
    fun b hb hnot => ?_, fun ino hlo hhi => ?_⟩
  · rw [Vol.InZone] at hnot
    rw [hbits b (hg.bits_per_block ▸ hb)]
    exact decide_eq_true (by omega)
  · rw [hibits ino hhi]
    exact decide_eq_true (Or.inr (by omega))

theorem Laid.blockStep (hl : Laid v) (h : BlockStep v v') : Laid v' := by
  have hg := h.geometry hl.geometry
  obtain ⟨_, _, _, _, rfl⟩ := h
  exact { hl with geometry := hg }

end Laid

/-! ## 4. Free blocks

The number of map blocks that are counted depends on the size of the data zone, and the map on the
size of the device. -/

/-- Any sequence of `gas_new_block` and `gas_free_block`.  Any number may be given back, since the
kernel refuses those outside the data zone. -/
inductive BlockCalls (v₀ : Vol) : Vol → Prop
  | start : BlockCalls v₀ v₀
  | new {v : Vol} (h : BlockCalls v₀ v) : BlockCalls v₀ (gas_new_block v).2.2
  | free {v : Vol} (block : Nat) (h : BlockCalls v₀ v) : BlockCalls v₀ (gas_free_block v block)

section Blocks

variable {size : Nat} {v v₀ : Vol}

/-- Taking a block keeps the padding. -/
theorem gas_new_block_padded (hg : Geometry v) (hp : v.MapPadded) :
    (gas_new_block v).2.2.MapPadded := by
  rcases gas_new_block_taken hg.map hp with ⟨b, v', he, ht⟩ | ⟨he, -⟩
  · rw [he]
    exact ht.padded hp
  · rw [he]
    exact hp

/-- So does giving one back. -/
theorem gas_free_block_padded (hg : Geometry v) (hp : v.MapPadded) (block : Nat) :
    (gas_free_block v block).MapPadded := by
  have hstep := gas_free_block_blockStep v block
  intro b hb hnot
  rw [hstep.inZone] at hnot
  rw [hstep.sbi] at hb
  rw [inUse_gas_free_block hg.map, if_neg]
  · exact hp b hb hnot
  · rintro ⟨rfl, hzone⟩
    exact hnot hzone

/-- **Along every run** the layout and the padding stay. -/
theorem BlockCalls.laid (h : BlockCalls v₀ v) (hl : Laid v₀) (hp : v₀.MapPadded) :
    Laid v ∧ v.MapPadded ∧ v.sbi = v₀.sbi := by
  induction h with
  | start => exact ⟨hl, hp, rfl⟩
  | @new v _ ih =>
    obtain ⟨hl, hp, hsbi⟩ := ih
    have hstep := gas_new_block_blockStep v
    exact ⟨hl.blockStep hstep, gas_new_block_padded hl.geometry hp, hstep.sbi.trans hsbi⟩
  | @free v block _ ih =>
    obtain ⟨hl, hp, hsbi⟩ := ih
    have hstep := gas_free_block_blockStep v block
    exact ⟨hl.blockStep hstep, gas_free_block_padded hl.geometry hp block, hstep.sbi.trans hsbi⟩

/-- **`gas_count_free_blocks`** counts the clear bits of the first map blocks. -/
theorem gas_count_free_blocks_eq (hl : Laid v) :
    let k := (v.sbi.s_nblocks - v.sbi.s_data_block_start) / 32768 + 1
    k ≤ v.sbi.s_bam_blocks ∧
      gas_count_free_blocks v = (List.range k, some (clear_count v.inUse (k * 32768))) := by
  have hzone := hl.zone
  have hlt := hl.nblocks_lt
  have hcov := hl.geometry.covers
  have hpos := hl.geometry.data_pos
  have hbits : u32 (v.sbi.s_nblocks + 4294967296 - v.sbi.s_data_block_start + 1) =
      v.sbi.s_nblocks - v.sbi.s_data_block_start + 1 := by
    rw [u32]
    omega
  have hk : u32 (v.sbi.s_nblocks - v.sbi.s_data_block_start + 1 + 32768 - 1) / 32768 =
      (v.sbi.s_nblocks - v.sbi.s_data_block_start) / 32768 + 1 := by
    rw [u32_of_lt (by omega)]
    omega
  have hle : (v.sbi.s_nblocks - v.sbi.s_data_block_start) / 32768 + 1 ≤ v.sbi.s_bam_blocks := by
    omega
  refine ⟨hle, ?_⟩
  have hbs : 2 ^ v.s_blocksize_bits = 4096 := by
    rw [hl.geometry.blocksize_bits]
    norm_num
  have hd : u32 (4096 * 8) = 32768 := rfl
  rw [gas_count_free_blocks, hbits, hbs, count_free, hd, hk]
  generalize (v.sbi.s_nblocks - v.sbi.s_data_block_start) / 32768 + 1 = k at hle
  have hmap : ∀ j < k, v.s_bam_bh (0 + j) = some (v.bam (0 + j)) := fun j hj =>
    if_pos (by omega)
  have hcount := clear_count_le v.inUse (k * 32768)
  have hflat : (fun b => flat 32768 v.bam (0 * 32768 + b)) = v.inUse := by
    funext b
    rw [Nat.zero_mul, Nat.zero_add]
    exact (hl.geometry.inUse b).symm
  rw [count_free_loop_eq k 0 0 hmap (by norm_num), hflat, Nat.zero_add, u32_of_lt,
    List.range_eq_range']
  have htight := hl.bam_tight
  have := Nat.mul_le_mul_right 32768 hle
  omega

/-- The free blocks are the clear bits of the whole map.  The padding is set, so it makes no
difference to a count of clear bits. -/
theorem card_free (hl : Laid v) (hp : v.MapPadded) :
    v.free.card = clear_count v.inUse (v.sbi.s_bam_blocks * 32768) := by
  rw [clear_count_eq_card]
  refine congrArg Finset.card (Finset.ext fun b => ?_)
  have hcov := hl.geometry.covers
  rw [mem_free, Finset.mem_filter, Finset.mem_range]
  constructor
  · rintro ⟨hzone, hclear⟩
    exact ⟨Nat.lt_of_lt_of_le hzone.2 hcov, hclear⟩
  · rintro ⟨hlt, hclear⟩
    refine ⟨?_, hclear⟩
    by_contra hnot
    rw [hp b (hl.geometry.bits_per_block ▸ hlt) hnot] at hclear
    exact Bool.false_ne_true hclear.symm

/-- A free block behind the map blocks counted is not counted, so the count is too small by one at
least.  The block has its bit in a map block behind them. -/
theorem gas_count_free_blocks_short (hl : Laid v) (hp : v.MapPadded) {b : Nat} (hb : b ∈ v.free)
    (hbehind : ((v.sbi.s_nblocks - v.sbi.s_data_block_start) / 32768 + 1) * 32768 ≤ b) :
    (gas_count_free_blocks v).2 ≠ some v.free.card := by
  obtain ⟨hzone, hclear⟩ := mem_free.mp hb
  rw [(gas_count_free_blocks_eq hl).2, card_free hl hp]
  intro heq
  have hle := Nat.count_monotone (fun k => v.inUse k = false) hbehind
  have hlt := Nat.count_strict_mono (p := fun k => v.inUse k = false) hclear
    (Nat.lt_of_lt_of_le hzone.2 hl.geometry.covers)
  have := Option.some.inj heq
  simp only [clear_count] at this
  omega

/-- It counts the free blocks when it looks at every map block. -/
theorem gas_count_free_blocks_exact (hl : Laid v) (hp : v.MapPadded)
    (hround : v.sbi.s_data_block_start ≤ (v.sbi.s_nblocks - 1) % 32768 + 1) :
    (gas_count_free_blocks v).2 = some v.free.card := by
  have hzone := hl.zone
  have hpos := hl.geometry.data_pos
  have hcov := hl.geometry.covers
  have htight := hl.bam_tight
  have hk : (v.sbi.s_nblocks - v.sbi.s_data_block_start) / 32768 + 1 = v.sbi.s_bam_blocks := by
    omega
  rw [(gas_count_free_blocks_eq hl).2, card_free hl hp, hk]

/-- **When free blocks are counted right.**  On a volume mounted from an image of `mkfs.gas` the count
is exact in every state that calls of `gas_new_block` and `gas_free_block` reach, if and only if the
last map block has at least as many blocks as lie in front of the data zone. -/
theorem free_blocks_exact_iff (h : FreshMount size v₀) :
    (∀ v, BlockCalls v₀ v → (gas_count_free_blocks v).2 = some v.free.card) ↔
      v₀.sbi.s_data_block_start ≤ (v₀.sbi.s_nblocks - 1) % 32768 + 1 := by
  obtain ⟨n, hshow⟩ := h.shows
  obtain ⟨hl₀, hp₀, -⟩ := hshow.laid
  have hzone := hl₀.zone
  have hpos := hl₀.geometry.data_pos
  have hcov := hl₀.geometry.covers
  have htight := hl₀.bam_tight
  constructor
  · intro hall
    by_contra hcross
    have hrun := (BlockCalls.start : BlockCalls v₀ v₀).free (v₀.sbi.s_nblocks - 1)
    obtain ⟨hl, hp, hsbi⟩ := hrun.laid hl₀ hp₀
    have hlast : v₀.InZone (v₀.sbi.s_nblocks - 1) := ⟨by omega, by omega⟩
    refine gas_count_free_blocks_short hl hp (b := v₀.sbi.s_nblocks - 1) ?_ ?_ (hall _ hrun)
    · rw [mem_free, (gas_free_block_blockStep _ _).inZone, inUse_gas_free_block hl₀.geometry.map]
      exact ⟨hlast, if_pos ⟨rfl, hlast⟩⟩
    · rw [hsbi]
      omega
  · intro hround v hrun
    obtain ⟨hl, hp, hsbi⟩ := hrun.laid hl₀ hp₀
    exact gas_count_free_blocks_exact hl hp (by rw [hsbi]; exact hround)

end Blocks

/-- A device of 256 blocks has one map block, and counts exactly. -/
theorem megabyte_counts : ∃ v, FreshMount 1048576 v ∧
    ∀ v', BlockCalls v v' → (gas_count_free_blocks v').2 = some v'.free.card := by
  obtain ⟨v, h, hshow⟩ := fresh_mount 1048576 (by decide) (by decide) (by decide)
    (by decide) (by decide)
  refine ⟨v, h, (free_blocks_exact_iff h).mpr ?_⟩
  rw [hshow.sbi]
  decide

/-- **One block in a second map block**: on a fresh device of 32769 blocks the block 32768 is free, and
the count looks at the first map block only. -/
theorem second_map_block_not_counted : ∃ v, FreshMount 134221824 v ∧ v.sbi.s_bam_blocks = 2 ∧
    (gas_count_free_blocks v).1 = [0] ∧ 32768 ∈ v.free ∧
    (gas_count_free_blocks v).2 ≠ some v.free.card := by
  obtain ⟨v, h, hshow⟩ := fresh_mount 134221824 (by decide) (by decide) (by decide)
    (by decide) (by decide)
  obtain ⟨hl, hp, -⟩ := hshow.laid
  have hb : v.sbi.s_bam_blocks = 2 := by rw [hshow.sbi]; decide
  have hn : v.sbi.s_nblocks = 32769 := by rw [hshow.sbi]; decide
  have hd : v.sbi.s_data_block_start = 132 := by rw [hshow.sbi]; decide
  have hfree : 32768 ∈ v.free := by
    rw [mem_free, Vol.InZone, hn, hd, hshow.bam 32768 (by decide)]
    decide
  refine ⟨v, h, hb, ?_, hfree, gas_count_free_blocks_short hl hp hfree ?_⟩
  · rw [(gas_count_free_blocks_eq hl).2, hn, hd]
    rfl
  · rw [hn, hd]

/-! ## 5. Free inodes

The array of map buffers ends with the inode map, so one block too many is behind it. -/

/-- Any sequence of `gas_new_inode` and of `gas_free_inode` on inodes that have a record.  A number
without a record would clear a padding bit, which is the subject of `GasFs.InodeMap`. -/
inductive InodeCalls (v₀ : Vol) : Vol → Prop
  | start : InodeCalls v₀ v₀
  | new {v : Vol} (dir : Inode) (mode : BitVec 16) (h : InodeCalls v₀ v) :
      InodeCalls v₀ (gas_new_inode v dir mode).2.2
  | free {v : Vol} (inode : Inode) (hino : inode.i_ino < v.sbi.s_ninodes) (h : InodeCalls v₀ v) :
      InodeCalls v₀ (gas_free_inode v inode)

/-- **What is asked of `gas_statfs`**: both counts read their own part of the array only, and the
free inodes are counted exactly.  The elements read are in the logs of the two counts. -/
def StatfsInBounds (v : Vol) : Prop :=
  (∀ i ∈ (gas_count_free_inodes v).1, i < v.sbi.s_iam_blocks) ∧
    (∀ i ∈ (gas_count_free_blocks v).1, i < v.sbi.s_bam_blocks) ∧
    (gas_count_free_inodes v).2 = some v.freeInodes.card

section Inodes

variable {size : Nat} {v v₀ : Vol}

/-- What a call changes keeps the layout and the padding, as long as no padding bit is cleared. -/
theorem Vol.IamPadded.write {bit : Nat} {x : Bool} {words : Nat → Nat → Nat} {tick : Nat}
    {hint : Fin v.sbi.s_iam_blocks} (hp : v.IamPadded) (hbit : x = true ∨ bit < v.sbi.s_ninodes) :
    Vol.IamPadded { v with
      words := words, tick := tick, s_iam_last := hint
      iam := write_bit v.iam (bit / 32768) (bit % 32768) x } := by
  intro n hlo hhi
  have hold := hp n hlo hhi
  simp only [Vol.inodeInUse, write_bit_block]
  split
  · next he =>
    refine hbit.elim (fun h => h) fun h => ?_
    subst he
    exact absurd h (Nat.not_lt.mpr hlo)
  · exact hold

/-- **Along every run** the layout and the padding stay. -/
theorem InodeCalls.laid (h : InodeCalls v₀ v) (hl : Laid v₀) (hp : v₀.IamPadded) :
    Laid v ∧ v.IamPadded ∧ v.sbi = v₀.sbi := by
  induction h with
  | start => exact ⟨hl, hp, rfl⟩
  | @new v dir mode _ ih =>
    obtain ⟨hl, hp, hsbi⟩ := ih
    have hlim : v.inoLimit ≤ 4294967296 := by
      have htight := hl.iam_tight
      have hlt := hl.ninodes_lt
      rw [Vol.inoLimit]
      omega
    rcases gas_new_inode_cases hl.geometry hlim dir mode with ⟨ino, hint, he, -⟩ | ⟨e, he, -⟩
    · rw [he]
      exact ⟨{ hl with geometry := { hl.geometry with } }, hp.write (Or.inl rfl), hsbi⟩
    · rw [he]
      exact ⟨{ hl with geometry := { hl.geometry with } }, hp, hsbi⟩
  | @free v inode hino _ ih =>
    obtain ⟨hl, hp, hsbi⟩ := ih
    rcases Nat.eq_zero_or_pos inode.i_ino with hz | hpos
    · have he : gas_free_inode v inode = v := by
        unfold gas_free_inode
        exact if_pos (Or.inl (by omega))
      rw [he]
      exact ⟨hl, hp, hsbi⟩
    · obtain ⟨words, he, -⟩ := gas_free_inode_eq hl.geometry inode hpos (Nat.le_of_lt hino)
        (Nat.lt_of_lt_of_le hino hl.iam_covers)
      rw [he]
      exact ⟨{ hl with geometry := { hl.geometry with } }, hp.write (Or.inr hino), hsbi⟩

/-- **`gas_count_free_inodes`** asks for the map blocks of one inode more than there are. -/
theorem gas_count_free_inodes_eq (hl : Laid v) :
    gas_count_free_inodes v =
      count_free_loop v.s_iam_bh 4096 (v.sbi.s_ninodes / 32768 + 1) 0 0 := by
  have hlt := hl.ninodes_lt
  have hbits : u32 (v.sbi.s_ninodes + 1) = v.sbi.s_ninodes + 1 := u32_of_lt (by omega)
  have hk : u32 (v.sbi.s_ninodes + 1 + 32768 - 1) / 32768 = v.sbi.s_ninodes / 32768 + 1 := by
    rw [u32_of_lt (by omega)]
    omega
  have hbs : 2 ^ v.s_blocksize_bits = 4096 := by
    rw [hl.geometry.blocksize_bits]
    norm_num
  have hd : u32 (4096 * 8) = 32768 := rfl
  rw [gas_count_free_inodes, hbits, hbs, count_free, hd, hk]

/-- The elements of `s_iam_bh`. -/
theorem s_iam_bh_of_lt {i : Nat} (hi : i < v.sbi.s_iam_blocks) : v.s_iam_bh i = some (v.iam i) := by
  rw [Vol.s_iam_bh, Vol.s_bam_bh, if_neg (by omega), if_pos (by omega), Nat.add_sub_cancel_left]

theorem s_iam_bh_end : v.s_iam_bh v.sbi.s_iam_blocks = none := by
  rw [Vol.s_iam_bh, Vol.s_bam_bh, if_neg (by omega), if_neg (by omega)]

/-- When the inodes fill their map blocks, the count reads behind the array.  The one inode more
that it asks for has its bit in the next map block. -/
theorem gas_count_free_inodes_outside (hl : Laid v) (hfull : 32768 ∣ v.sbi.s_ninodes) :
    v.sbi.s_iam_blocks ∈ (gas_count_free_inodes v).1 ∧ (gas_count_free_inodes v).2 = none := by
  have hcov := hl.iam_covers
  have htight := hl.iam_tight
  have hlt : v.sbi.s_iam_blocks < v.sbi.s_ninodes / 32768 + 1 := by omega
  have hsome : ∀ j < v.sbi.s_iam_blocks, (v.s_iam_bh (0 + j)).isSome := fun j hj => by
    rw [Nat.zero_add, s_iam_bh_of_lt hj]
    rfl
  have hnone : v.s_iam_bh (0 + v.sbi.s_iam_blocks) = none := by
    rw [Nat.zero_add]
    exact s_iam_bh_end
  have hout := @count_free_loop_outside _ 4096 _ _ 0 0 hlt hsome hnone
  rw [Nat.zero_add] at hout
  rw [gas_count_free_inodes_eq hl]
  exact hout

/-- Otherwise it counts the free inodes. -/
theorem gas_count_free_inodes_exact (hl : Laid v) (hp : v.IamPadded)
    (hpart : ¬32768 ∣ v.sbi.s_ninodes) :
    gas_count_free_inodes v = (List.range v.sbi.s_iam_blocks, some v.freeInodes.card) := by
  have hcov := hl.iam_covers
  have htight := hl.iam_tight
  have hlt := hl.ninodes_lt
  have hk : v.sbi.s_ninodes / 32768 + 1 = v.sbi.s_iam_blocks := by omega
  have hflat : (fun b => flat 32768 v.iam (0 * 32768 + b)) = v.inodeInUse := by
    funext b
    rw [Nat.zero_mul, Nat.zero_add]
    rfl
  have hcount := clear_count_le v.inodeInUse (v.sbi.s_iam_blocks * 32768)
  have hcard : v.freeInodes.card = clear_count v.inodeInUse (v.sbi.s_iam_blocks * 32768) := by
    rw [clear_count_eq_card]
    refine congrArg Finset.card (Finset.ext fun n => ?_)
    rw [Vol.freeInodes, Finset.mem_filter, Finset.mem_range, Finset.mem_filter, Finset.mem_range]
    constructor
    · rintro ⟨hn, hclear⟩
      exact ⟨Nat.lt_of_lt_of_le hn hcov, hclear⟩
    · rintro ⟨hn, hclear⟩
      refine ⟨?_, hclear⟩
      by_contra hge
      rw [hp n (Nat.not_lt.mp hge) hn] at hclear
      exact Bool.false_ne_true hclear.symm
  rw [gas_count_free_inodes_eq hl, hk, count_free_loop_eq (m := v.iam) _ 0 0
    (fun j hj => by rw [Nat.zero_add]; exact s_iam_bh_of_lt hj) (by norm_num), hflat, Nat.zero_add,
    u32_of_lt (by omega), hcard, List.range_eq_range']

/-- **When `gas_statfs` stays in bounds.**  On a volume mounted from an image of `mkfs.gas` it does,
and counts the free inodes exactly, in every state that allocating and freeing inodes reaches, if and
only if the number of inodes is no multiple of 32768. -/
theorem statfs_in_bounds_iff (h : FreshMount size v₀) :
    (∀ v, InodeCalls v₀ v → StatfsInBounds v) ↔ ¬32768 ∣ v₀.sbi.s_ninodes := by
  obtain ⟨n, hshow⟩ := h.shows
  obtain ⟨hl₀, -, hp₀⟩ := hshow.laid
  constructor
  · intro hall hfull
    have hin := (hall v₀ .start).1 _ (gas_count_free_inodes_outside hl₀ hfull).1
    exact absurd hin (Nat.lt_irrefl _)
  · intro hpart v hrun
    obtain ⟨hl, hp, hsbi⟩ := hrun.laid hl₀ hp₀
    have hinodes := gas_count_free_inodes_exact hl hp (by rw [hsbi]; exact hpart)
    obtain ⟨hk, hblocks⟩ := gas_count_free_blocks_eq hl
    rw [StatfsInBounds, hinodes, hblocks]
    refine ⟨fun i hi => List.mem_range.mp hi, fun i hi => ?_, rfl⟩
    exact Nat.lt_of_lt_of_le (List.mem_range.mp hi) hk

/-- **What `gas_statfs` reports** where both counts are right. -/
theorem gas_statfs_eq (hl : Laid v) (hb : v.MapPadded) (hi : v.IamPadded)
    (hround : v.sbi.s_data_block_start ≤ (v.sbi.s_nblocks - 1) % 32768 + 1)
    (hpart : ¬32768 ∣ v.sbi.s_ninodes) :
    gas_statfs v = some
      { f_type := v.sbi.s_magic
        f_bsize := 4096
        f_blocks := v.sbi.s_nblocks - v.sbi.s_data_block_start
        f_bfree := v.free.card
        f_bavail := v.free.card
        f_files := v.sbi.s_ninodes
        f_ffree := v.freeInodes.card
        f_namelen := 256 } := by
  have hzone := hl.zone
  have hlt := hl.nblocks_lt
  have hbs : 2 ^ v.s_blocksize_bits = 4096 := by
    rw [hl.geometry.blocksize_bits]
    norm_num
  have hblocks : u32 (v.sbi.s_nblocks + 4294967296 - v.sbi.s_data_block_start) =
      v.sbi.s_nblocks - v.sbi.s_data_block_start := by
    rw [u32]
    omega
  rw [gas_statfs, gas_count_free_blocks_exact hl hb hround, gas_count_free_inodes_exact hl hi hpart,
    hbs, hblocks]
  rfl

end Inodes

/-- On 256 blocks it does. -/
theorem megabyte_in_bounds : ∃ v, FreshMount 1048576 v ∧ ∀ v', InodeCalls v v' → StatfsInBounds v' := by
  obtain ⟨v, h, hshow⟩ := fresh_mount 1048576 (by decide) (by decide) (by decide)
    (by decide) (by decide)
  refine ⟨v, h, (statfs_in_bounds_iff h).mpr ?_⟩
  rw [hshow.sbi]
  decide

/-- **Behind the array**: a device of 131072 blocks has 32768 inodes and one map block for them, and
the count asks for a second. -/
theorem statfs_out_of_bounds : ∃ v, FreshMount 536870912 v ∧ v.sbi.s_iam_blocks = 1 ∧
    1 ∈ (gas_count_free_inodes v).1 ∧ (gas_count_free_inodes v).2 = none ∧ gas_statfs v = none ∧
    ¬StatfsInBounds v := by
  obtain ⟨v, h, hshow⟩ := fresh_mount 536870912 (by decide) (by decide) (by decide)
    (by decide) (by decide)
  obtain ⟨hl, -, -⟩ := hshow.laid
  have hi : v.sbi.s_iam_blocks = 1 := by rw [hshow.sbi]; decide
  obtain ⟨hmem, hnone⟩ := gas_count_free_inodes_outside hl (by rw [hshow.sbi]; decide)
  have hblocks := (gas_count_free_blocks_eq hl).2
  refine ⟨v, h, hi, by rw [← hi]; exact hmem, hnone, ?_, fun hb => ?_⟩
  · rw [gas_statfs, hblocks, hnone]
    rfl
  · exact absurd (hb.1 _ hmem) (Nat.lt_irrefl _)

end GasFs
