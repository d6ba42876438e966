/-
# The two bitmaps `mkfs.gas` makes, and the space it finds in one of them

`init_block_alloc_map` and `init_inode_alloc_map` mark what cannot be used: what is in use from the
start, and the padding behind the last object (`init_maps_mark_unusable`).

`allocate_blk` searches the block map one block at a time.  `bitmap_alloc_region` answers 0 when a map
block has no room, and also when its room starts at position 0; `allocate_blk` takes both for "no
room here".  So the search passes over room at the start of a map block, and leaves the bits of it set
in a buffer that is not marked for writing: `allocate_blk_finds_space_iff`.

The condition is exact, and its negation is a real device: a map block that is full up to its end
followed by one that is clear from its start.  `mkfs.gas` then says that there is no space, with
`FilesysParam.room` not empty.

The search is stated without the cache: `Searched` says what it did to the blocks it looked at, and
`allocate_blk_loop_cases` where it stopped.  The two halves of the equivalence are then facts about
bits.
-/
import GasFs.Mkfs.Image

namespace GasFs

open Bytes BitArray

/-- The map blocks from `start` on, taken together. -/
def map_bits (blocks : Nat → Mem) (start : Nat) : Nat → Bool :=
  flat 32768 fun m => map_bit (blocks (start + m))

/-! ## 1. The maps of an empty volume

One lemma about the loop, `init_alloc_map_bits`, and the two maps are its two instances: the block
map with everything in front of the data zone in use, the inode map with number 0 in use. -/

/-- A device of less than `2 ^ 31` blocks keeps its bitmaps within reach of an `int` offset, and an
`int` can count down from `data_st`. -/
theorem map_blocks_reach {size : Nat} (h : (filesys_param size).blk_cnt < 2 ^ 31) :
    offset_ok (filesys_param size).INODE_LIST_START ∧
      int32 (filesys_param size).data_st = (filesys_param size).data_st := by
  obtain ⟨hst, hcnt, -, hbam, -, hiam, hino⟩ := filesys_param_counts size
  generalize filesys_param size = gas at *
  simp only [FilesysParam.INODE_LIST_START, FilesysParam.IAM_BLOCK_START, BAM_BLOCK_START] at hst ⊢
  refine ⟨?_, ?_⟩
  · rw [offset_ok_iff]
    omega
  · simp only [int32]
    rw [if_pos (by omega), Nat.mod_eq_of_lt (by omega)]

/-- One of the two loops, bit by bit.  `preallocated` bits are set from the start, and the padding
behind bit `cnt`. -/
theorem init_alloc_map_bits {maps cnt preallocated block : Nat} (dev : Dev)
    (hcnt : cnt ≤ maps * 32768) (hlast : maps * 32768 < cnt + 32768)
    (hoff : ∀ b < block + maps, offset_ok b) :
    ∃ dev', init_alloc_map_loop maps cnt maps 1 preallocated block dev = some dev' ∧
      ∀ b < maps * 32768, map_bits dev' block b = true ↔ b < preallocated ∨ cnt ≤ b := by
  obtain ⟨dev', hrun, -, hbits⟩ :=
    init_alloc_map_loop_spec hcnt hlast maps 0 preallocated block dev (Nat.zero_add maps) hoff
  refine ⟨dev', hrun, fun b hb => ?_⟩
  have hk : b % 32768 < 32768 := Nat.mod_lt b (by norm_num)
  have hm : b / 32768 < maps := Nat.div_lt_of_lt_mul (by omega)
  rw [map_bits, flat, hbits _ hm _ hk, decide_eq_true_iff, Nat.zero_add, Nat.mul_comm,
    Nat.div_add_mod]

/-- **The initial maps mark exactly what is unusable**: of the blocks those in front of the data zone,
of the inode numbers the number 0, and the padding of either map. -/
theorem init_maps_mark_unusable {size : Nat} (hlt : (filesys_param size).blk_cnt < 2 ^ 31)
    (dev : Dev) :
    let gas := filesys_param size
    int32 gas.data_st = gas.data_st ∧
      (∃ dev', init_block_alloc_map gas dev = some dev' ∧ ∀ b < gas.bam_blk * 32768,
        map_bits dev' BAM_BLOCK_START b = true ↔ b < gas.data_st ∨ gas.blk_cnt ≤ b) ∧
      ∃ dev', init_inode_alloc_map gas dev = some dev' ∧ ∀ i < gas.iam_blk * 32768,
        map_bits dev' gas.IAM_BLOCK_START i = true ↔ i = 0 ∨ gas.ino_cnt ≤ i := by
  intro gas
  obtain ⟨-, -, hbam, hbam', hiam, hiam', -⟩ := filesys_param_counts size
  obtain ⟨hreach, hint⟩ := map_blocks_reach hlt
  refine ⟨hint, ?_, ?_⟩
  · refine init_alloc_map_bits dev hbam hbam' fun b hb => offset_ok_of_le hreach ?_
    simp only [FilesysParam.INODE_LIST_START, FilesysParam.IAM_BLOCK_START]
    exact Nat.le_of_lt (Nat.lt_of_lt_of_le hb (Nat.le_add_right _ _))
  · obtain ⟨dev', hrun, hbits⟩ := init_alloc_map_bits dev hiam hiam'
      fun b hb => offset_ok_of_le hreach (Nat.le_of_lt hb)
    refine ⟨dev', hrun, fun i hi => ?_⟩
    rw [hbits i hi, Nat.lt_one_iff]

/-- A device of 40000 blocks has two block-map blocks and one of the inode map.  Block 159 is the last
in front of the data zone, block 39999 the last of the device; there are 9984 inode numbers. -/
theorem init_maps_mark_unusable_two_blocks :
    (∃ dev', init_block_alloc_map (filesys_param 163840000) (fun _ _ => 0xff) = some dev' ∧
      map_bits dev' BAM_BLOCK_START 159 = true ∧ map_bits dev' BAM_BLOCK_START 160 ≠ true ∧
      map_bits dev' BAM_BLOCK_START 39999 ≠ true ∧ map_bits dev' BAM_BLOCK_START 40000 = true) ∧
    ∃ dev', init_inode_alloc_map (filesys_param 163840000) (fun _ _ => 0xff) = some dev' ∧
      map_bits dev' 3 0 = true ∧ map_bits dev' 3 1 ≠ true ∧ map_bits dev' 3 9983 ≠ true ∧
      map_bits dev' 3 9984 = true := by
  obtain ⟨-, ⟨dev1, hrun1, hbam⟩, dev2, hrun2, hiam⟩ :=
    @init_maps_mark_unusable 163840000 (by decide) fun _ _ => 0xff
  refine ⟨⟨dev1, hrun1, (hbam 159 ?_).mpr ?_, mt (hbam 160 ?_).mp ?_, mt (hbam 39999 ?_).mp ?_,
    (hbam 40000 ?_).mpr ?_⟩, dev2, hrun2, (hiam 0 ?_).mpr ?_, mt (hiam 1 ?_).mp ?_,
    mt (hiam 9983 ?_).mp ?_, (hiam 9984 ?_).mpr ?_⟩
  all_goals decide

/-! ## 2. Room in a map block

`FirstRun` is what first fit finds.  It is unique, and `alloc_region_cases` says that the answer of
`bitmap_alloc_region` is its position, or 0 when the block has no such run. -/

/-- The block has `n` clear bits in a row.  A run does not go on from one map block into the next:
the search is made block by block. -/
def HasRun (block : Mem) (n : Nat) : Prop := ∃ p, p + n ≤ 32768 ∧ ClearRun (as_map block) p n

/-- The first `n` clear bits in a row start at `p`.  Its position is what `bitmap_alloc_region`
answers, and 0 is such a position as well. -/
structure FirstRun (block : Mem) (n p : Nat) : Prop where
  fits : p + n ≤ 32768
  clear : ClearRun (as_map block) p n
  first : ∀ p' < p, ¬ClearRun (as_map block) p' n

section Room

variable {block : Mem} {n p : Nat}

/-- A first run is a run. -/
theorem FirstRun.hasRun (h : FirstRun block n p) : HasRun block n := ⟨p, h.fits, h.clear⟩

/-- There is one first run at most. -/
theorem FirstRun.unique {p' : Nat} (h : FirstRun block n p) (h' : FirstRun block n p') :
    p = p' := by
  rcases Nat.lt_trichotomy p p' with hlt | he | hgt
  · exact absurd h.clear (h'.first p hlt)
  · exact he
  · exact absurd h'.clear (h.first p' hgt)

/-- A clear run shows in the bits of the block. -/
theorem map_bit_of_clearRun (h : ClearRun (as_map block) p n) {k : Nat} (h1 : p ≤ k)
    (h2 : k < p + n) : map_bit block k = false := by
  rw [← bits_as_map]
  exact h k h1 h2

/-- What `bitmap_alloc_region` answers for a map block, and what it leaves there. -/
theorem alloc_region_cases (block : Mem) (hn : 0 < n) :
    (∃ p, FirstRun block n p ∧ (alloc_region block 0 n).1 = p ∧
      ∀ k, map_bit (of_map (alloc_region block 0 n).2) k =
        (decide (p ≤ k ∧ k < p + n) || map_bit block k)) ∨
    (¬HasRun block n ∧ (alloc_region block 0 n).1 = 0 ∧
      ∀ k, map_bit (of_map (alloc_region block 0 n).2) k = map_bit block k) := by
  rcases bitmap_alloc_region_cases (as_map block) BITS_PER_BLOCK 0 n (by decide) hn with
    ⟨p, he, -, hfits, hclear, hfirst⟩ | ⟨he, hnone⟩
  · refine Or.inl ⟨p, ⟨hfits, hclear, fun p' => hfirst p' (Nat.zero_le p')⟩, ?_, fun k => ?_⟩
    · rw [alloc_region, he]
    · rw [alloc_region, he, map_bit_of_map, bits_bitmap_set, bits_as_map]
  · refine Or.inr ⟨fun hrun => ?_, ?_, fun k => ?_⟩
    · obtain ⟨p, hfits, hclear⟩ := hrun
      exact hnone p (Nat.zero_le p) hfits hclear
    · rw [alloc_region, he]
    · rw [alloc_region, he, map_bit_of_map, bits_as_map]

/-- The answer for a block with room is where the room starts. -/
theorem FirstRun.alloc_region (h : FirstRun block n p) (hn : 0 < n) :
    (alloc_region block 0 n).1 = p ∧ ∀ k, map_bit (of_map (GasFs.alloc_region block 0 n).2) k =
      (decide (p ≤ k ∧ k < p + n) || map_bit block k) := by
  rcases alloc_region_cases block hn with ⟨p', hp', hres⟩ | ⟨hnone, -⟩
  · obtain rfl := h.unique hp'
    exact hres
  · exact absurd h.hasRun hnone

/-- A full block is left as it is. -/
theorem alloc_region_of_not_hasRun (h : ¬HasRun block n) (hn : 0 < n) :
    (alloc_region block 0 n).1 = 0 ∧
      ∀ k, map_bit (of_map (alloc_region block 0 n).2) k = map_bit block k := by
  rcases alloc_region_cases block hn with ⟨p, hp, -⟩ | ⟨-, hres⟩
  · exact absurd hp.hasRun h
  · exact hres

end Room

/-! ## 3. The search over the map blocks

A round reads a map block and lets `bitmap_alloc_region` write to it in the cache, whatever it
answers.  In a block without room nothing is written; in a block with room at position 0 the bits
are set, the answer is taken for a failure, and the search goes on. -/

section Search

variable {st st' : Mkfs} {n block rounds : Nat}

/-- What a search has done to the map blocks it looked at, and to no other.  A block looked at shows
what `bitmap_alloc_region` makes of it, even where its answer was not used. -/
structure Searched (n block rounds : Nat) (st st' : Mkfs) : Prop where
  within : ∀ m < rounds, st'.get (block + m) = of_map (alloc_region (st.get (block + m)) 0 n).2
  outside : ∀ b, b < block ∨ block + rounds ≤ b → st'.get b = st.get b

/-- One map block: read, and changed in place. -/
theorem bc_read_edit (h : st.Readable block) (map : Mem) :
    ∃ st1, bc_read st block = some st1 ∧ st1.get block = st.get block ∧
      let st2 := bc_edit st1 block fun _ => map
      st2.Cached block ∧ (∀ b, st2.get b = if b = block then map else st.get b) ∧
        ∀ b, b ≠ block → (st2.Readable b ↔ st.Readable b) := by
  obtain ⟨st1, hread⟩ := bc_read_of_readable h
  have hr := bc_read_reads hread
  have he := bc_edit_edits (fun _ => map) hr.cached
  refine ⟨st1, hread, hr.get block, (he.cached block).mpr hr.cached, fun b => ?_, fun b hne => ?_⟩
  · rw [he.get, hr.get]
  · refine or_congr ((he.cached b).trans ⟨fun hc => ?_, hr.keeps b⟩) Iff.rfl
    exact (hr.only b hc).resolve_left hne

/-- The first block done, the rest to do. -/
theorem Searched.cons {st2 : Mkfs} (hget : ∀ b, st2.get b =
      if b = block then of_map (alloc_region (st.get block) 0 n).2 else st.get b)
    (h : Searched n (block + 1) rounds st2 st') : Searched n block (rounds + 1) st st' where
  within m hm := by
    rcases m with _ | m
    · rw [Nat.add_zero, h.outside block (Or.inl (Nat.lt_succ_self block)), hget, if_pos rfl]
    · have hw := h.within m (Nat.lt_of_succ_lt_succ hm)
      rw [hget, if_neg (by omega), Nat.add_right_comm, Nat.add_assoc] at hw
      exact hw
  outside b hb := by
    rw [h.outside b (by omega), hget, if_neg (by omega)]

/-- **The search** ends at the first map block that answers with anything but 0, or at the first
that cannot be read, or at the last.  The three ends exclude each other, and each says what the map
blocks show afterwards. -/
theorem allocate_blk_loop_cases (n : Nat) : ∀ (rounds i block : Nat) (st : Mkfs),
    (∃ m < rounds, (alloc_region (st.get (block + m)) 0 n).1 ≠ 0 ∧
      (∀ m' < m, (alloc_region (st.get (block + m')) 0 n).1 = 0) ∧
      (∀ m' ≤ m, st.Readable (block + m')) ∧
      ∃ st', allocate_blk_loop n rounds i block st =
          some (u32 ((alloc_region (st.get (block + m)) 0 n).1 + (i + m) * 32768), st') ∧
        Searched n block (m + 1) st st' ∧ st'.Dirty (block + m)) ∨
    ((∀ m < rounds, (alloc_region (st.get (block + m)) 0 n).1 = 0 ∧ st.Readable (block + m)) ∧
      ∃ st', allocate_blk_loop n rounds i block st = some (0, st') ∧
        Searched n block rounds st st') ∨
    ∃ m < rounds, ¬st.Readable (block + m) ∧
      (∀ m' < m, (alloc_region (st.get (block + m')) 0 n).1 = 0) ∧
      allocate_blk_loop n rounds i block st = none := by
  intro rounds
  induction rounds with
  | zero =>
    intro i block st
    exact Or.inr (Or.inl ⟨fun m hm => absurd hm (Nat.not_lt_zero m), st, rfl,
      fun m hm => absurd hm (Nat.not_lt_zero m), fun _ _ => rfl⟩)
  | succ rounds ih =>
    intro i block st
    by_cases hread : st.Readable block
    · obtain ⟨st1, h1, hget1, hc2, hget2, hreadable⟩ :=
        bc_read_edit hread (of_map (alloc_region (st.get block) 0 n).2)
      simp only [allocate_blk_loop, h1, Option.bind_eq_bind, Option.bind_some, hget1]
      generalize bc_edit st1 block _ = st2 at hc2 hget2 hreadable
      have hnext : ∀ m, st2.get (block + 1 + m) = st.get (block + (m + 1)) := by
        intro m
        rw [hget2, if_neg (by omega), Nat.add_right_comm, Nat.add_assoc]
      have hnext' : ∀ m, st2.Readable (block + 1 + m) ↔ st.Readable (block + (m + 1)) := by
        intro m
        rw [hreadable _ (by omega), Nat.add_right_comm, Nat.add_assoc]
      by_cases hz : (alloc_region (st.get block) 0 n).1 = 0
      · -- passed over, for want of room or because the room starts at position 0
        simp only [hz, if_true]
        have hih := ih (i + 1) (block + 1) st2
        simp only [hnext, hnext'] at hih
        rcases hih with ⟨m, hm, hne, hpass, hrd, st', hrun, hs, hd⟩ | ⟨hall, st', hrun, hs⟩ |
          ⟨m, hm, hrd, hpass, hrun⟩
        · refine Or.inl ⟨m + 1, Nat.succ_lt_succ hm, hne, ?_, ?_, st', ?_, hs.cons hget2, ?_⟩
          · intro m' hm'
            rcases m' with _ | m'
            · exact hz
            · exact hpass m' (Nat.lt_of_succ_lt_succ hm')
          · intro m' hm'
            rcases m' with _ | m'
            · exact hread
            · exact hrd m' (Nat.le_of_succ_le_succ hm')
          · rw [hrun, show i + 1 + m = i + (m + 1) by omega]
          · rw [show block + (m + 1) = block + 1 + m by omega]
            exact hd
        · refine Or.inr (Or.inl ⟨fun m hm => ?_, st', hrun, hs.cons hget2⟩)
          rcases m with _ | m
          · exact ⟨hz, hread⟩
          · exact hall m (Nat.lt_of_succ_lt_succ hm)
        · refine Or.inr (Or.inr ⟨m + 1, Nat.succ_lt_succ hm, hrd, fun m' hm' => ?_, hrun⟩)
          rcases m' with _ | m'
          · exact hz
          · exact hpass m' (Nat.lt_of_succ_lt_succ hm')
      · simp only [hz, if_false]
        obtain ⟨st', hwrite⟩ := bc_write_isSome st2 block
        have hm := bc_write_marks hwrite hc2
        refine Or.inl ⟨0, Nat.succ_pos rounds, hz, fun m' hm' => absurd hm' (Nat.not_lt_zero m'),
          fun m' hm' => ?_, st', ?_, ?_, (hm.dirty block).mpr (Or.inl rfl)⟩
        · rw [Nat.le_zero.mp hm']
          exact hread
        · simp only [hwrite, Option.bind_some, Nat.add_zero]
          rfl
        · have hget : ∀ b, st'.get b =
              if b = block then of_map (alloc_region (st.get block) 0 n).2 else st.get b :=
            fun b => (hm.get b).trans (hget2 b)
          refine ⟨fun m' hm' => ?_, fun b hb => ?_⟩
          · obtain rfl : m' = 0 := Nat.lt_one_iff.mp hm'
            rw [Nat.add_zero, hget, if_pos rfl]
          · rw [hget, if_neg (by omega)]
    · refine Or.inr (Or.inr ⟨0, Nat.succ_pos rounds, hread,
        fun m' hm' => absurd hm' (Nat.not_lt_zero m'), ?_⟩)
      simp only [allocate_blk_loop, bc_read_of_not_readable hread, Option.bind_eq_bind,
        Option.bind_none]

end Search

/-! ## 4. Space is found when there is some

`FindsSpace` is the specification, `RoomShown` the condition.  From left to right: a search that
passes over room at position 0 has set bits outside the region it returns, or has returned none with
room there, and `room_of_changed` turns the first into a contradiction. -/

section Alloc

variable {gas : FilesysParam} {st : Mkfs} {n : Nat}

/-- The blocks at which a map block has `n` clear bits in a row. -/
def FilesysParam.room (gas : FilesysParam) (st : Mkfs) (n : Nat) : Set Nat :=
  {b | b < gas.bam_blk * 32768 ∧ b % 32768 + n ≤ 32768 ∧
    ClearRun (as_map (st.get (BAM_BLOCK_START + b / 32768))) (b % 32768) n}

/-- `allocate_blk` takes room where there is some, sets its bits and marks its map block; it returns
`INVALID_NO` when there is none; and it changes no other bit.  It is the specification one would
write for an allocator, whatever this one does. -/
def FindsSpace (gas : FilesysParam) (st : Mkfs) (n : Nat) : Prop :=
  ∃ b st', allocate_blk gas st n = some (b, st') ∧
    ((b ∈ gas.room st n ∧ st'.Dirty (BAM_BLOCK_START + b / 32768) ∧
        ∀ x < gas.bam_blk * 32768, map_bits st'.get BAM_BLOCK_START x =
          (decide (b ≤ x ∧ x < b + n) || map_bits st.get BAM_BLOCK_START x)) ∨
      (gas.room st n = ∅ ∧ b = INVALID_NO ∧
        ∀ x < gas.bam_blk * 32768, map_bits st'.get BAM_BLOCK_START x =
          map_bits st.get BAM_BLOCK_START x))

/-- The first map block with room does not have it at position 0, and its blocks have numbers that
fit a `u32`; or no map block has room and all of them can be read.  The bound 131072 on the map
block is the number of map blocks whose block numbers have 32 bits. -/
def RoomShown (gas : FilesysParam) (st : Mkfs) (n : Nat) : Prop :=
  (∃ m < gas.bam_blk, m < 131072 ∧ (∃ p, 0 < p ∧ FirstRun (st.get (BAM_BLOCK_START + m)) n p) ∧
      ∀ m' < m, ¬HasRun (st.get (BAM_BLOCK_START + m')) n) ∨
    ∀ m < gas.bam_blk, ¬HasRun (st.get (BAM_BLOCK_START + m)) n ∧ st.Readable (BAM_BLOCK_START + m)

/-- Room in a map block, by block number. -/
theorem mem_room_iff {m p : Nat} (hn : 0 < n) : m * 32768 + p ∈ gas.room st n ∧ p < 32768 ↔
    m < gas.bam_blk ∧ p + n ≤ 32768 ∧ ClearRun (as_map (st.get (BAM_BLOCK_START + m))) p n := by
  by_cases hp : p < 32768
  · have hdiv : (m * 32768 + p) / 32768 = m := by omega
    have hmod : (m * 32768 + p) % 32768 = p := by omega
    simp only [FilesysParam.room, Set.mem_ofPred_eq, hdiv, hmod, hp, and_true]
    exact and_congr_left fun _ => by omega
  · exact iff_of_false (fun h => hp h.2) fun h => by omega

/-- The first run of a map block is room, at the number it has on the device. -/
theorem mem_room_of_firstRun {m p : Nat} (hn : 0 < n) (hm : m < gas.bam_blk)
    (h : FirstRun (st.get (BAM_BLOCK_START + m)) n p) : m * 32768 + p ∈ gas.room st n :=
  ((mem_room_iff hn).mpr ⟨hm, h.fits, h.clear⟩).1

/-- Room is a run in its map block. -/
theorem hasRun_of_mem_room {b : Nat} (h : b ∈ gas.room st n) :
    HasRun (st.get (BAM_BLOCK_START + b / 32768)) n := ⟨b % 32768, h.2.1, h.2.2⟩

/-- Without a run in any map block there is no room. -/
theorem room_eq_empty (h : ∀ m < gas.bam_blk, ¬HasRun (st.get (BAM_BLOCK_START + m)) n) :
    gas.room st n = ∅ :=
  Set.eq_empty_of_forall_notMem fun b hb =>
    h (b / 32768) (Nat.div_lt_of_lt_mul (Nat.mul_comm _ _ ▸ hb.1)) (hasRun_of_mem_room hb)

/-- A bit of the maps by its map block and its place there. -/
theorem map_bits_mul_add (blocks : Nat → Mem) (start m : Nat) {k : Nat} (hk : k < 32768) :
    map_bits blocks start (m * 32768 + k) = map_bit (blocks (start + m)) k := by
  rw [map_bits, flat, show (m * 32768 + k) / 32768 = m by omega,
    show (m * 32768 + k) % 32768 = k by omega]

/-- To compare the maps, compare them block by block. -/
theorem forall_map_bits {bam : Nat} {P : Nat → Prop}
    (h : ∀ m < bam, ∀ k < 32768, P (m * 32768 + k)) : ∀ x < bam * 32768, P x := by
  intro x hx
  have hx' := h (x / 32768) (Nat.div_lt_of_lt_mul (Nat.mul_comm _ _ ▸ hx)) (x % 32768)
    (Nat.mod_lt x (by norm_num))
  rw [Nat.mul_comm, Nat.div_add_mod] at hx'
  exact hx'

/-- No room, and nothing is changed. -/
theorem findsSpace_of_none (hn : 0 < n) (h : ∀ m < gas.bam_blk,
      ¬HasRun (st.get (BAM_BLOCK_START + m)) n ∧ st.Readable (BAM_BLOCK_START + m)) :
    FindsSpace gas st n := by
  have hempty := room_eq_empty fun m hm => (h m hm).1
  rcases allocate_blk_loop_cases n gas.bam_blk 0 BAM_BLOCK_START st with
    ⟨m, hm, hne, -⟩ | ⟨-, st', hrun, hs⟩ | ⟨m, hm, hrd, -⟩
  · exact absurd (alloc_region_of_not_hasRun (h m hm).1 hn).1 hne
  · refine ⟨0, st', hrun, Or.inr ⟨hempty, rfl, forall_map_bits fun m hm k hk => ?_⟩⟩
    rw [map_bits_mul_add _ _ _ hk, map_bits_mul_add _ _ _ hk, hs.within m hm,
      (alloc_region_of_not_hasRun (h m hm).1 hn).2]
  · exact absurd (h m hm).2 hrd

/-- Room away from position 0, and the search ends there. -/
theorem allocate_blk_of_firstRun (hn : 0 < n) {m p : Nat} (hm : m < gas.bam_blk)
    (hreach : m < 131072) (hp : 0 < p) (hfirst : FirstRun (st.get (BAM_BLOCK_START + m)) n p)
    (hbefore : ∀ m' < m, ¬HasRun (st.get (BAM_BLOCK_START + m')) n) :
    ∃ st', allocate_blk gas st n = some (m * 32768 + p, st') ∧ st'.Dirty (BAM_BLOCK_START + m) ∧
      Searched n BAM_BLOCK_START (m + 1) st st' := by
  rcases allocate_blk_loop_cases n gas.bam_blk 0 BAM_BLOCK_START st with
    ⟨m', hm', hne, hpass, -, st', hrun, hs, hd⟩ | ⟨hall, -⟩ | ⟨m', hm', hrd, hpass, -⟩
  · have hmm : m' = m := by
      rcases Nat.lt_trichotomy m' m with hlt | he | hgt
      · exact absurd (alloc_region_of_not_hasRun (hbefore m' hlt) hn).1 hne
      · exact he
      · exact absurd ((hfirst.alloc_region hn).1.symm.trans (hpass m hgt)) (Nat.ne_of_gt hp)
    subst hmm
    have hfits := hfirst.fits
    rw [(hfirst.alloc_region hn).1, u32_of_lt (by omega), Nat.zero_add, Nat.add_comm] at hrun
    exact ⟨st', hrun, hd, hs⟩
  · exact absurd ((hfirst.alloc_region hn).1.symm.trans (hall m hm).1) (Nat.ne_of_gt hp)
  · refine absurd (Or.inr (offset_ok_iff.mpr ?_)) hrd
    have hle : m' ≤ m := by
      by_contra hlt
      exact absurd ((hfirst.alloc_region hn).1.symm.trans (hpass m (Nat.lt_of_not_le hlt)))
        (Nat.ne_of_gt hp)
    simp only [BAM_BLOCK_START]
    omega

/-- The bits after a search that took the first room. -/
theorem Searched.map_bits {st' : Mkfs} (hn : 0 < n) {m p : Nat}
    (hs : Searched n BAM_BLOCK_START (m + 1) st st')
    (hfirst : FirstRun (st.get (BAM_BLOCK_START + m)) n p)
    (hbefore : ∀ m' < m, ¬HasRun (st.get (BAM_BLOCK_START + m')) n) (m' : Nat) {k : Nat}
    (hk : k < 32768) : GasFs.map_bits st'.get BAM_BLOCK_START (m' * 32768 + k) =
      (decide (m * 32768 + p ≤ m' * 32768 + k ∧ m' * 32768 + k < m * 32768 + p + n) ||
        GasFs.map_bits st.get BAM_BLOCK_START (m' * 32768 + k)) := by
  have hfits := hfirst.fits
  rw [map_bits_mul_add _ _ _ hk, map_bits_mul_add _ _ _ hk]
  rcases Nat.lt_trichotomy m' m with hlt | rfl | hgt
  · rw [hs.within m' (Nat.lt_succ_of_lt hlt), (alloc_region_of_not_hasRun (hbefore m' hlt) hn).2,
      decide_eq_false (by omega), Bool.false_or]
  · rw [hs.within m' (Nat.lt_succ_self m'), (hfirst.alloc_region hn).2]
    exact congrArg (· || _) (decide_eq_decide.mpr (by omega))
  · rw [hs.outside _ (Or.inr (by omega)), decide_eq_false (by omega), Bool.false_or]

/-- A bit the search has set, where it should not have. -/
theorem room_of_changed {st' : Mkfs} {b m k : Nat} (hb : b ∈ gas.room st n)
    (hbits : ∀ x < gas.bam_blk * 32768, map_bits st'.get BAM_BLOCK_START x =
      (decide (b ≤ x ∧ x < b + n) || map_bits st.get BAM_BLOCK_START x))
    (hm : m < gas.bam_blk) (hk : k < 32768)
    (hclear : map_bit (st.get (BAM_BLOCK_START + m)) k = false)
    (hset : map_bit (st'.get (BAM_BLOCK_START + m)) k = true) : b / 32768 = m := by
  have hx := hbits (m * 32768 + k) (by omega)
  rw [map_bits_mul_add _ _ _ hk, map_bits_mul_add _ _ _ hk, hclear, hset, Bool.or_false] at hx
  have hin := of_decide_eq_true hx.symm
  have hfits := hb.2.1
  omega

/-- The first room of all.  First in its map block, and in the first map block with any. -/
theorem isLeast_room (hn : 0 < n) {m p : Nat} (hm : m < gas.bam_blk)
    (hfirst : FirstRun (st.get (BAM_BLOCK_START + m)) n p)
    (hbefore : ∀ m' < m, ¬HasRun (st.get (BAM_BLOCK_START + m')) n) :
    IsLeast (gas.room st n) (m * 32768 + p) := by
  refine ⟨mem_room_of_firstRun hn hm hfirst, fun b hb => ?_⟩
  by_contra hlt
  have hfits := hfirst.fits
  rcases Nat.lt_or_ge (b / 32768) m with h | h
  · exact hbefore _ h (hasRun_of_mem_room hb)
  · obtain rfl : b / 32768 = m := by omega
    exact hfirst.first _ (by omega) hb.2.2

/-- When the code does what it should, room is shown: a search that passed over room at position 0
of a map block has changed the bits there. -/
theorem FindsSpace.roomShown (hn : 0 < n) (hsuper : map_bit (st.get BAM_BLOCK_START) 0 = true)
    (h : FindsSpace gas st n) : RoomShown gas st n := by
  obtain ⟨b, st', hrun, hres⟩ := h
  rcases allocate_blk_loop_cases n gas.bam_blk 0 BAM_BLOCK_START st with
    ⟨m, hm, hne, hpass, -, st'', hrun', hs, -⟩ | ⟨hall, st'', hrun', hs⟩ | ⟨m, hm, -, -, hrun'⟩
  · obtain ⟨rfl, rfl⟩ := Prod.mk.inj (Option.some.inj (hrun.symm.trans hrun'))
    obtain ⟨p, hp⟩ : ∃ p, FirstRun (st.get (BAM_BLOCK_START + m)) n p := by
      rcases alloc_region_cases (st.get (BAM_BLOCK_START + m)) hn with ⟨p, hp, -⟩ | ⟨-, hz, -⟩
      · exact ⟨p, hp⟩
      · exact absurd hz hne
    have hpos : (alloc_region (st.get (BAM_BLOCK_START + m)) 0 n).1 = p := (hp.alloc_region hn).1
    have hfits := hp.fits
    obtain ⟨hmem, -, hbits⟩ := hres.resolve_right fun hnone =>
      Set.notMem_empty _ (hnone.1 ▸ mem_room_of_firstRun hn hm hp)
    -- the bits of the region are set, so the region is in the map block of the answer
    have hhere := room_of_changed hmem hbits hm (by omega : p < 32768)
      (map_bit_of_clearRun hp.clear (Nat.le_refl p) (by omega)) (by
        rw [hs.within m (Nat.lt_succ_self m), (hp.alloc_region hn).2, decide_eq_true (by omega)]
        rfl)
    have hreach : m < 131072 := by
      have hlt : u32 ((alloc_region (st.get (BAM_BLOCK_START + m)) 0 n).1 + (0 + m) * 32768) <
        4294967296 := Nat.mod_lt _ (by norm_num)
      omega
    refine Or.inl ⟨m, hm, hreach, ⟨p, Nat.pos_of_ne_zero (hpos ▸ hne), hp⟩, fun m' hm' hrun => ?_⟩
    rcases alloc_region_cases (st.get (BAM_BLOCK_START + m')) hn with ⟨p', hp', hz, -⟩ | ⟨hno, -⟩
    · obtain rfl : p' = 0 := hz.symm.trans (hpass m' hm')
      have hthere := room_of_changed hmem hbits (Nat.lt_trans hm' hm) (by norm_num : 0 < 32768)
        (map_bit_of_clearRun hp'.clear (Nat.le_refl 0) (by omega)) (by
          rw [hs.within m' (Nat.lt_succ_of_lt hm'), (hp'.alloc_region hn).2,
            decide_eq_true (by omega)]
          rfl)
      exact absurd (hthere.symm.trans hhere) (Nat.ne_of_lt hm')
    · exact hno hrun
  · obtain ⟨rfl, rfl⟩ := Prod.mk.inj (Option.some.inj (hrun.symm.trans hrun'))
    refine Or.inr fun m hm => ⟨fun hroom => ?_, (hall m hm).2⟩
    rcases alloc_region_cases (st.get (BAM_BLOCK_START + m)) hn with ⟨p, hp, -⟩ | ⟨hno, -⟩
    · have hmem := (hres.resolve_right fun hnone =>
        Set.notMem_empty _ (hnone.1 ▸ mem_room_of_firstRun hn hm hp)).1
      have hclear := map_bit_of_clearRun hmem.2.2 (Nat.le_refl _) (by omega)
      rw [Nat.zero_div, Nat.zero_mod, Nat.add_zero, hsuper] at hclear
      exact Bool.false_ne_true hclear.symm
    · exact hno hroom
  · rw [allocate_blk, hrun'] at hrun
    simp at hrun

/-- **`allocate_blk` finds space exactly when the first room is not at position 0 of its map block.**
Then it takes the first room there is. -/
theorem allocate_blk_finds_space_iff (gas : FilesysParam) (st : Mkfs) {n : Nat} (hn : 1 ≤ n)
    (hsuper : map_bit (st.get BAM_BLOCK_START) 0 = true) :
    (FindsSpace gas st n ↔ RoomShown gas st n) ∧
      (RoomShown gas st n → (gas.room st n).Nonempty →
        ∃ b st', allocate_blk gas st n = some (b, st') ∧ IsLeast (gas.room st n) b) := by
  refine ⟨⟨FindsSpace.roomShown hn hsuper, fun h => ?_⟩, fun h hroom => ?_⟩
  · rcases h with ⟨m, hm, hreach, ⟨p, hp, hfirst⟩, hbefore⟩ | hnone
    · obtain ⟨st', hrun, hd, hs⟩ := allocate_blk_of_firstRun hn hm hreach hp hfirst hbefore
      have hfits := hfirst.fits
      have hblock : (m * 32768 + p) / 32768 = m := by omega
      refine ⟨m * 32768 + p, st', hrun, Or.inl ⟨mem_room_of_firstRun hn hm hfirst, ?_, ?_⟩⟩
      · rw [hblock]
        exact hd
      · exact forall_map_bits fun m' _ k hk => hs.map_bits hn hfirst hbefore m' hk
    · exact findsSpace_of_none hn hnone
  · rcases h with ⟨m, hm, hreach, ⟨p, hp, hfirst⟩, hbefore⟩ | hnone
    · obtain ⟨st', hrun, -⟩ := allocate_blk_of_firstRun hn hm hreach hp hfirst hbefore
      exact ⟨m * 32768 + p, st', hrun, isLeast_room hn hm hfirst hbefore⟩
    · rw [room_eq_empty fun m hm => (hnone m hm).1] at hroom
      exact absurd hroom Set.not_nonempty_empty

end Alloc

/-- A device whose first map block is full; the other blocks are zeros. -/
def first_map_full : Mkfs := ⟨fun b => if b = 1 then fun _ => 0xff else fun _ => 0, []⟩

/-- Its first map block is all ones. -/
theorem map_bit_full (k : Nat) : map_bit (first_map_full.get 1) k = true := by
  have hall : ∀ j < 8, (0xff#8).getLsbD j = true := by decide
  exact hall _ (Nat.mod_lt k (by norm_num))

/-- Its second map block is all zeros. -/
theorem map_bit_empty (k : Nat) : map_bit (first_map_full.get 2) k = false := BitVec.getLsbD_zero

/-- In the second the first free bit is at position 0. -/
theorem firstRun_empty : FirstRun (first_map_full.get 2) 1 0 where
  fits := by decide
  clear j _ _ := (bits_as_map _ j).trans (map_bit_empty j)
  first p' h := absurd h (Nat.not_lt_zero p')

/-- In the first there is none. -/
theorem not_hasRun_full : ¬HasRun (first_map_full.get 1) 1 := by
  rintro ⟨p, -, hclear⟩
  have hbit := map_bit_of_clearRun hclear (Nat.le_refl p) (Nat.lt_succ_self p)
  rw [map_bit_full] at hbit
  exact Bool.false_ne_true hbit.symm

/-- **The second map block is empty, and `allocate_blk` says there is no space**: it has set bit 0
of that block in the cache, and takes its answer 0 for "not found". The device has 40000 blocks, of
which only the first 32768 are marked. -/
theorem space_at_position_zero_missed :
    (filesys_param (40000 * 4096)).bam_blk = 2 ∧ map_bit (first_map_full.get BAM_BLOCK_START) 0 = true ∧
      32768 ∈ (filesys_param (40000 * 4096)).room first_map_full 1 ∧
      (∃ st', allocate_blk (filesys_param (40000 * 4096)) first_map_full 1 = some (INVALID_NO, st') ∧
        map_bit (st'.get 2) 0 = true) ∧
      ¬FindsSpace (filesys_param (40000 * 4096)) first_map_full 1 := by
  have hbam : (filesys_param (40000 * 4096)).bam_blk = 2 := by decide
  have hroom : 32768 ∈ (filesys_param (40000 * 4096)).room first_map_full 1 :=
    mem_room_of_firstRun (m := 1) (by decide) (by decide) firstRun_empty
  have hout : ∃ st', allocate_blk (filesys_param (40000 * 4096)) first_map_full 1 =
      some (INVALID_NO, st') ∧ map_bit (st'.get 2) 0 = true := by
    obtain ⟨st', hrun, hs⟩ : ∃ st', allocate_blk_loop 1 2 0 BAM_BLOCK_START first_map_full =
        some (0, st') ∧ Searched 1 BAM_BLOCK_START 2 first_map_full st' := by
      rcases allocate_blk_loop_cases 1 2 0 BAM_BLOCK_START first_map_full with
        ⟨m, hm, hne, -⟩ | ⟨-, hres⟩ | ⟨m, hm, hrd, -⟩
      · obtain rfl | rfl : m = 0 ∨ m = 1 := by omega
        · exact absurd (alloc_region_of_not_hasRun not_hasRun_full (by decide)).1 hne
        · exact absurd (firstRun_empty.alloc_region (by decide)).1 hne
      · exact hres
      · refine absurd (Or.inr (offset_ok_iff.mpr ?_)) hrd
        simp only [BAM_BLOCK_START]
        omega
    refine ⟨st', by rw [allocate_blk, hbam, hrun], ?_⟩
    rw [hs.within 1 (by decide), (firstRun_empty.alloc_region (by decide)).2]
    rfl
  refine ⟨hbam, map_bit_full 0, hroom, hout, fun ⟨b, st', hrun, hres⟩ => ?_⟩
  obtain ⟨st'', hrun', -⟩ := hout
  obtain ⟨rfl, rfl⟩ := Prod.mk.inj (Option.some.inj (hrun.symm.trans hrun'))
  rcases hres with ⟨hmem, -⟩ | ⟨hempty, -⟩
  · have hfull := hasRun_of_mem_room hmem
    rw [Nat.zero_div, Nat.add_zero] at hfull
    exact not_hasRun_full hfull
  · exact Set.notMem_empty _ (hempty ▸ hroom)

/-- With nothing but the superblock in use, two blocks are found behind it. -/
theorem allocate_blk_finds_space_busy : FindsSpace (filesys_param 40960)
    ⟨fun b => if b = 1 then of_map fun _ => 1#64 else fun _ => 0, []⟩ 2 := by
  have hbits : ∀ k, bits (as_map (of_map fun _ => 1#64)) k = (1#64).getLsbD (k % 64) := fun k => by
    rw [bits_as_map, map_bit_of_map, bits]
  refine (allocate_blk_finds_space_iff _ _ (by decide) ?_).1.mpr
    (Or.inl ⟨0, by decide, by decide, ⟨1, by decide, by decide, fun j h1 h2 => ?_, fun p hp hrun => ?_⟩,
      fun m hm => absurd hm (Nat.not_lt_zero m)⟩)
  · exact (map_bit_of_map _ 0).trans rfl
  · refine (hbits j).trans ?_
    obtain rfl | rfl : j = 1 ∨ j = 2 := by omega
    · rfl
    · rfl
  · obtain rfl : p = 0 := Nat.lt_one_iff.mp hp
    have hbit := (hbits 0).symm.trans (hrun 0 (Nat.le_refl 0) (by decide))
    exact Bool.false_ne_true hbit.symm

end GasFs
