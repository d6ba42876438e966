/-
# The two bitmaps: `kern/bitmap.c`

`gas_new_block` and `gas_new_inode` search a bitmap of several blocks for a clear bit, starting
at a hint and going round; `gas_free_block` and `gas_free_inode` clear a bit after range checks.

The search is one definition, `map_search`, used at both maps.  `map_search_eq_none_iff` and
`map_search_some` say what it does in terms of the maps alone, so no later proof follows the
loop.  Each of the four operations then has one lemma (`gas_new_block_cases`,
`inUse_gas_free_block`, `gas_new_inode_cases`, `gas_free_inode_eq`).

The search follows the `do … while` loop of the source: it begins with the map block of the last
success, looks for a clear bit in each block, and ends when it is back at the block it began with.
A number is made of the block and the bit by a product of 32-bit numbers, which is where a volume
with too large a map would go wrong; `clear_bit_block` shows that on a padded map it does not,
because a clear bit is that of a data block.

The range checks of `gas_free_block` and `gas_free_inode` differ.  The first refuses everything
outside the data zone.  The second refuses numbers greater than `s_ninodes` only, so it lets the
number `s_ninodes` pass, for which there is no record; both are translated as they stand.

`BlockStep` is the frame of all block operations: it lists what they may change of a volume, and
everything else is kept (`BlockStep.geometry`, `BlockStep.inZone`).
-/
import GasFs.Layout

namespace GasFs

/-! ## 1. Searching a bitmap

`find_first_zero_bit` of the kernel returns the size when there is no clear bit, and the loop tests
for that. -/

/-- `find_first_zero_bit`: the first clear bit below `size`, or `size`. -/
def find_first_zero_bit (map : Nat → Bool) (size : Nat) : Nat :=
  ((List.range size).find? fun bit => !map bit).getD size

theorem find_first_zero_bit_spec (map : Nat → Bool) (size : Nat) :
    (find_first_zero_bit map size < size ∧ map (find_first_zero_bit map size) = false) ∨
      (find_first_zero_bit map size = size ∧ ∀ bit < size, map bit = true) := by
  unfold find_first_zero_bit
  cases h : (List.range size).find? fun bit => !map bit with
  | none =>
    refine Or.inr ⟨rfl, fun bit hb => ?_⟩
    simpa using List.find?_eq_none.mp h bit (List.mem_range.mpr hb)
  | some bit =>
    refine Or.inl ⟨?_, ?_⟩
    · exact List.mem_range.mp (List.mem_of_find?_eq_some h)
    · simpa using List.find?_some h

theorem find_first_zero_bit_full {map : Nat → Bool} {size : Nat} (h : ∀ bit < size, map bit = true) :
    find_first_zero_bit map size = size := by
  rcases find_first_zero_bit_spec map size with ⟨hlt, hclear⟩ | ⟨heq, -⟩
  · rw [h _ hlt] at hclear
    exact absurd hclear (by simp)
  · exact heq

/-- The first clear bit, told by the bits before it. -/
theorem find_first_zero_bit_eq {map : Nat → Bool} {size bit : Nat} (hlt : bit < size)
    (hclear : map bit = false) (hbefore : ∀ j < bit, map j = true) :
    find_first_zero_bit map size = bit := by
  have hfind : (List.range size).find? (fun bit => !map bit) = some bit := by
    rw [List.find?_range_eq_some]
    exact ⟨by rw [hclear]; rfl, List.mem_range.mpr hlt, fun j hj => by rw [hbefore j hj]; rfl⟩
  rw [find_first_zero_bit, hfind]
  rfl

/-- The next map block, going round. -/
def next_map {n : Nat} (i : Fin n) : Fin n := ⟨(i + 1) % n, Nat.mod_lt _ i.pos⟩

/-- The `do … while (i != last)` loop of `gas_new_block` and `gas_new_inode`: the first map
block with a clear bit, and that bit.  The loop makes at most `n` rounds (`map_search_fuel`). -/
def map_search {n : Nat} (map : Nat → Nat → Bool) (bits : Nat) (last : Fin n) :
    Nat → Fin n → Option (Fin n × Nat)
  | 0, _ => none
  | fuel + 1, i =>
    let bit := find_first_zero_bit (map i) bits
    if bit < bits then some (i, bit)
    else if next_map i = last then none
    else map_search map bits last fuel (next_map i)

/-- The position after `t` rounds from `last`. -/
theorem next_map_eq_last_iff {n t : Nat} {last i : Fin n} (ht : t < n)
    (hi : i.val = (last.val + t) % n) : next_map i = last ↔ t + 1 = n := by
  have hl := last.isLt
  have hstep : (next_map i).val = (last.val + (t + 1)) % n := by
    simp only [next_map, hi, Nat.mod_add_mod]
    rw [Nat.add_assoc]
  rw [Fin.ext_iff, hstep]
  constructor
  · intro h
    by_contra hne
    by_cases hw : last.val + (t + 1) < n
    · rw [Nat.mod_eq_of_lt hw] at h; omega
    · rw [Nat.mod_eq_sub_mod (by omega), Nat.mod_eq_of_lt (by omega)] at h; omega
  · intro h
    rw [h, Nat.add_mod_right, Nat.mod_eq_of_lt hl]

/-- One loop invariant for both outcomes: after `t` rounds the search has the rounds `t … n - 1`
before it, and finds nothing exactly when all of their map blocks are full.  The block looked at is
the hint plus `t`, modulo the number of blocks. -/
theorem map_search_none_aux {n : Nat} (map : Nat → Nat → Bool) (bits : Nat) (last : Fin n) :
    ∀ (fuel t : Nat) (i : Fin n), t < n → n ≤ t + fuel → i.val = (last.val + t) % n →
      (map_search map bits last fuel i = none ↔
        ∀ s, t ≤ s → s < n → ∀ bit < bits, map ((last.val + s) % n) bit = true)
  | 0, t, i, ht, hf, _ => absurd hf (by omega)
  | fuel + 1, t, i, ht, hf, hi => by
    have hnext := next_map_eq_last_iff ht hi
    simp only [map_search]
    rcases find_first_zero_bit_spec (map i) bits with ⟨hlt, hclear⟩ | ⟨heq, hfull⟩
    · rw [if_pos hlt]
      simp only [reduceCtorEq, false_iff]
      intro h
      have := h t (Nat.le_refl _) ht _ hlt
      rw [← hi, hclear] at this
      exact Bool.false_ne_true this
    · rw [if_neg (by omega)]
      by_cases hlast : next_map i = last
      · rw [if_pos hlast]
        have htn : t + 1 = n := hnext.mp hlast
        simp only [true_iff]
        intro s hs hsn bit hbit
        have : s = t := by omega
        subst this
        rw [← hi]
        exact hfull bit hbit
      · rw [if_neg hlast]
        have htn : t + 1 ≠ n := fun h => hlast (hnext.mpr h)
        have hi' : (next_map i).val = (last.val + (t + 1)) % n := by
          simp only [next_map, hi, Nat.mod_add_mod]
          rw [Nat.add_assoc]
        rw [map_search_none_aux map bits last fuel (t + 1) (next_map i) (by omega) (by omega) hi']
        constructor
        · intro h s hs hsn bit hbit
          rcases Nat.eq_or_lt_of_le hs with rfl | hs
          · rw [← hi]; exact hfull bit hbit
          · exact h s hs hsn bit hbit
        · intro h s hs hsn
          exact h s (by omega) hsn

/-- **The search fails exactly when every map block is full**, wherever the hint stands. -/
theorem map_search_eq_none_iff {n : Nat} (map : Nat → Nat → Bool) (bits : Nat) (last : Fin n) :
    map_search map bits last n last = none ↔ ∀ i < n, ∀ bit < bits, map i bit = true := by
  have hl := last.isLt
  rw [map_search_none_aux map bits last n 0 last last.pos (by omega)
    (by rw [Nat.add_zero, Nat.mod_eq_of_lt hl])]
  constructor
  · intro h i hi bit hbit
    have := h ((i + (n - last.val)) % n) (Nat.zero_le _) (Nat.mod_lt _ last.pos) bit hbit
    rwa [Nat.add_mod_mod, show last.val + (i + (n - last.val)) = i + n by omega,
      Nat.add_mod_right, Nat.mod_eq_of_lt hi] at this
  · intro h s _ _ bit hbit
    exact h _ (Nat.mod_lt _ last.pos) bit hbit

/-- The bit found is a clear bit of the map. -/
theorem map_search_some {n : Nat} {map : Nat → Nat → Bool} {bits : Nat} {last : Fin n} :
    ∀ {fuel : Nat} {i j : Fin n} {bit : Nat}, map_search map bits last fuel i = some (j, bit) →
      bit < bits ∧ map j bit = false
  | 0, _, _, _, h => by simp [map_search] at h
  | fuel + 1, i, j, bit, h => by
    simp only [map_search] at h
    split at h
    · rename_i hlt
      obtain ⟨rfl, rfl⟩ : i = j ∧ find_first_zero_bit (map i) bits = bit := by simpa using h
      rcases find_first_zero_bit_spec (map i) bits with ⟨_, hc⟩ | ⟨he, _⟩
      · exact ⟨hlt, hc⟩
      · omega
    · split at h
      · simp at h
      · exact map_search_some h

/-- **`n` rounds are all the loop ever makes**: more fuel does not change its answer. -/
theorem map_search_fuel {n : Nat} (map : Nat → Nat → Bool) (bits : Nat) (last : Fin n) :
    ∀ (fuel t : Nat) (i : Fin n), t < n → n ≤ t + fuel → i.val = (last.val + t) % n →
      map_search map bits last (fuel + 1) i = map_search map bits last fuel i
  | 0, t, _, ht, hf, _ => absurd hf (by omega)
  | fuel + 1, t, i, ht, hf, hi => by
    have hnext := next_map_eq_last_iff ht hi
    conv_lhs => rw [map_search]
    conv_rhs => rw [map_search]
    by_cases hlast : next_map i = last
    · simp [hlast]
    · have htn : t + 1 ≠ n := fun h => hlast (hnext.mpr h)
      have hi' : (next_map i).val = (last.val + (t + 1)) % n := by
        simp only [next_map, hi, Nat.mod_add_mod]
        rw [Nat.add_assoc]
      rw [map_search_fuel map bits last fuel (t + 1) (next_map i) (by omega) (by omega) hi']

/-- `set_bit` and `clear_bit` on bit `bit` of map block `i`. -/
def write_bit (map : Nat → Nat → Bool) (i bit : Nat) (x : Bool) : Nat → Nat → Bool :=
  fun i' bit' => if i' = i ∧ bit' = bit then x else map i' bit'

@[simp] theorem write_bit_same (map : Nat → Nat → Bool) (i bit : Nat) (x : Bool) :
    write_bit map i bit x i bit = x := by simp [write_bit]

theorem write_bit_of_ne {map : Nat → Nat → Bool} {i bit i' bit' : Nat} {x : Bool}
    (h : ¬(i' = i ∧ bit' = bit)) : write_bit map i bit x i' bit' = map i' bit' := by
  simp [write_bit, h]

/-! ## 2. Blocks

A block map block has a bit for each of `s_bits_per_block` blocks.  `inUse` reads the map by block
number, as the two functions do. -/

/-- `gas_new_block`: the block number, `0` with `-ENOSPC`.  The hint moves to the map block in which
the bit was found, so that the next search begins there. -/
def gas_new_block (v : Vol) : Nat × Option Errno × Vol :=
  match map_search v.bam v.sbi.s_bits_per_block v.s_bam_last v.sbi.s_bam_blocks v.s_bam_last with
  | some (i, bit) =>
    (bit + u32 (i * v.sbi.s_bits_per_block), none,
      { v with bam := write_bit v.bam i bit true, s_bam_last := i })
  | none => (0, some .ENOSPC, v)

/-- The number `gas_new_block` makes of a bit. -/
def map_number (v : Vol) (i bit : Nat) : Nat := bit + u32 (i * v.sbi.s_bits_per_block)

/-- `gas_free_block`: range checks, then `test_and_clear_bit`.  The source splits the number by
shifts, which is a division by the bits of a map block.  A bit that is clear already is only
complained about. -/
def gas_free_block (v : Vol) (block : Nat) : Vol :=
  let k := v.s_blocksize_bits + 3
  if block < v.sbi.s_data_block_start ∨ v.sbi.s_nblocks ≤ block then v
  else
    let idx := block / 2 ^ k
    let bit := block % 2 ^ k
    if v.sbi.s_bam_blocks ≤ idx then v
    else { v with bam := write_bit v.bam idx bit false }

/-- Both functions split a number at the bits of one map block. -/
theorem Geometry.two_pow_k {v : Vol} (hg : Geometry v) : 2 ^ (v.s_blocksize_bits + 3) = 32768 := by
  rw [hg.blocksize_bits]
  norm_num

/-- The block map by block number. -/
def Vol.inUse (v : Vol) (b : Nat) : Bool :=
  v.bam (b / v.sbi.s_bits_per_block) (b % v.sbi.s_bits_per_block)

/-- With the map blocks of `mkfs.gas`. -/
theorem Geometry.inUse {v : Vol} (hg : Geometry v) (b : Nat) :
    v.inUse b = v.bam (b / 32768) (b % 32768) := by
  rw [Vol.inUse, hg.bits_per_block]

theorem Vol.inUse_congr {v v' : Vol} (hsbi : v'.sbi = v.sbi) (hbam : v'.bam = v.bam) (b : Nat) :
    v'.inUse b = v.inUse b := by
  rw [Vol.inUse, Vol.inUse, hsbi, hbam]

/-- Every bit of the block map is set: no block is free. -/
def Vol.BamFull (v : Vol) : Prop :=
  ∀ i < v.sbi.s_bam_blocks, ∀ bit < v.sbi.s_bits_per_block, v.bam i bit = true

/-- The block numbers of the data zone, `[s_data_block_start, s_nblocks)`. -/
def Vol.InZone (v : Vol) (b : Nat) : Prop := v.sbi.s_data_block_start ≤ b ∧ b < v.sbi.s_nblocks

instance (v : Vol) (b : Nat) : Decidable (v.InZone b) := inferInstanceAs (Decidable (_ ∧ _))

/-- The bits that are no data block's are set: the metadata in front and the padding behind.
`mkfs.gas` writes the map so, and no operation clears such a bit. -/
def Vol.MapPadded (v : Vol) : Prop :=
  ∀ b < v.sbi.s_bam_blocks * v.sbi.s_bits_per_block, ¬v.InZone b → v.inUse b = true

/-- A number is split into the map block and the bit it was made of. -/
theorem split_block {n i bit : Nat} (h : bit < n) :
    (i * n + bit) / n = i ∧ (i * n + bit) % n = bit := by
  rw [Nat.mul_comm, Nat.mul_add_div (Nat.zero_lt_of_lt h), Nat.div_eq_of_lt h, Nat.mul_add_mod,
    Nat.mod_eq_of_lt h]
  exact ⟨rfl, rfl⟩

/-- A clear bit is a data block's, so its number does not wrap in the 32-bit product: it is below
`s_nblocks`, which is a 32-bit number. -/
theorem clear_bit_block {v : Vol} (hg : MapGeometry v) (hp : v.MapPadded) {i bit : Nat}
    (hi : i < v.sbi.s_bam_blocks) (hbit : bit < v.sbi.s_bits_per_block)
    (hclear : v.bam i bit = false) :
    map_number v i bit = i * v.sbi.s_bits_per_block + bit ∧
      v.InZone (i * v.sbi.s_bits_per_block + bit) ∧
      v.inUse (i * v.sbi.s_bits_per_block + bit) = false := by
  obtain ⟨hdiv, hmod⟩ := split_block (i := i) hbit
  have hfree : v.inUse (i * v.sbi.s_bits_per_block + bit) = false := by
    rw [Vol.inUse, hdiv, hmod]
    exact hclear
  have hin : i * v.sbi.s_bits_per_block + bit < v.sbi.s_bam_blocks * v.sbi.s_bits_per_block :=
    calc i * v.sbi.s_bits_per_block + bit < (i + 1) * v.sbi.s_bits_per_block := by
          rw [Nat.succ_mul]
          exact Nat.add_lt_add_left hbit _
      _ ≤ _ := Nat.mul_le_mul_right _ hi
  have hz : v.InZone (i * v.sbi.s_bits_per_block + bit) := by
    by_contra hn
    rw [hp _ hin hn] at hfree
    exact Bool.false_ne_true hfree.symm
  have hlt : i * v.sbi.s_bits_per_block < 4294967296 :=
    lt_of_le_of_lt (Nat.le_add_right _ bit) (lt_trans hz.2 hg.nblocks_lt)
  refine ⟨?_, hz, hfree⟩
  rw [map_number, u32_of_lt hlt, Nat.add_comm]

/-- **`gas_new_block` returns a free data block and marks it, or there is none.** In the second case
nothing changes, not even the hint. -/
theorem gas_new_block_cases {v : Vol} (hg : MapGeometry v) (hp : v.MapPadded) :
    (∃ b hint, gas_new_block v =
        (b, none, { v with
          bam := write_bit v.bam (b / v.sbi.s_bits_per_block) (b % v.sbi.s_bits_per_block) true,
          s_bam_last := hint }) ∧
        v.InZone b ∧ v.inUse b = false) ∨
      (gas_new_block v = (0, some .ENOSPC, v) ∧ v.BamFull) := by
  unfold gas_new_block
  cases h : map_search v.bam v.sbi.s_bits_per_block v.s_bam_last v.sbi.s_bam_blocks
      v.s_bam_last with
  | none => exact Or.inr ⟨rfl, (map_search_eq_none_iff _ _ _).mp h⟩
  | some p =>
    obtain ⟨i, bit⟩ := p
    obtain ⟨hbit, hclear⟩ := map_search_some h
    obtain ⟨hdiv, hmod⟩ := split_block (i := i) hbit
    obtain ⟨hnum, hz, hfree⟩ := clear_bit_block hg hp i.isLt hbit hclear
    rw [map_number] at hnum
    exact Or.inl ⟨i * v.sbi.s_bits_per_block + bit, i, by simp only [hnum, hdiv, hmod], hz, hfree⟩

/-- **`gas_free_block` clears the bit of a data block and ignores every other number.** -/
theorem gas_free_block_eq {v : Vol} (hg : MapGeometry v) (b : Nat) :
    gas_free_block v b =
      if v.InZone b then
        { v with
          bam := write_bit v.bam (b / v.sbi.s_bits_per_block) (b % v.sbi.s_bits_per_block) false }
      else v := by
  unfold gas_free_block
  simp only [← hg.bits_per_block]
  by_cases hz : v.InZone b
  · have hidx : b / v.sbi.s_bits_per_block < v.sbi.s_bam_blocks := by
      rw [Nat.div_lt_iff_lt_mul hg.bits_pos]
      exact Nat.lt_of_lt_of_le hz.2 hg.covers
    rw [if_pos hz, if_neg (not_or.mpr ⟨Nat.not_lt.mpr hz.1, Nat.not_le.mpr hz.2⟩),
      if_neg (Nat.not_le.mpr hidx)]
  · rw [if_neg hz]
    rw [Vol.InZone] at hz
    rw [if_pos (by omega)]

/-- The bit of block `b` after its map was written at block `b'`. -/
theorem write_bit_block (map : Nat → Nat → Bool) {n : Nat} (b b' : Nat) (x : Bool) :
    write_bit map (b' / n) (b' % n) x (b / n) (b % n) =
      if b = b' then x else map (b / n) (b % n) := by
  by_cases h : b = b'
  · subst h; simp
  · rw [if_neg h, write_bit_of_ne]
    rintro ⟨hdiv, hmod⟩
    exact h (by rw [← Nat.div_add_mod b n, hdiv, hmod, Nat.div_add_mod])

/-- The block map of a volume that `mkfs.gas` made, after one bit was written. -/
theorem Geometry.inUse_write {v : Vol} (hg : Geometry v) (b : Nat) (x : Bool)
    (hint : Fin v.sbi.s_bam_blocks) (b' : Nat) :
    ({ v with bam := write_bit v.bam (b / 32768) (b % 32768) x, s_bam_last := hint } : Vol).inUse b' =
      if b' = b then x else v.inUse b' := by
  rw [Vol.inUse, Vol.inUse, hg.bits_per_block]
  exact write_bit_block v.bam b' b x

/-- What the block operations may change of a volume: block contents, the block map with its
hint, and the number of requests made. -/
def BlockStep (v v' : Vol) : Prop :=
  ∃ bam hint words tick, v' = { v with bam := bam, s_bam_last := hint, words := words, tick := tick }

theorem BlockStep.refl (v : Vol) : BlockStep v v := ⟨v.bam, v.s_bam_last, v.words, v.tick, rfl⟩

theorem BlockStep.trans {v v' v'' : Vol} (h : BlockStep v v') (h' : BlockStep v' v'') :
    BlockStep v v'' := by
  obtain ⟨_, _, _, _, rfl⟩ := h
  obtain ⟨bam, hint, words, tick, rfl⟩ := h'
  exact ⟨bam, hint, words, tick, rfl⟩

theorem BlockStep.sbi {v v' : Vol} (h : BlockStep v v') : v'.sbi = v.sbi := by
  obtain ⟨_, _, _, _, rfl⟩ := h; rfl

theorem BlockStep.env {v v' : Vol} (h : BlockStep v v') : v'.env = v.env := by
  obtain ⟨_, _, _, _, rfl⟩ := h; rfl

theorem BlockStep.geometry {v v' : Vol} (h : BlockStep v v') (hg : Geometry v) : Geometry v' := by
  obtain ⟨_, _, _, _, rfl⟩ := h; exact { hg with }

theorem BlockStep.map {v v' : Vol} (h : BlockStep v v') (hg : MapGeometry v) : MapGeometry v' := by
  obtain ⟨_, _, _, _, rfl⟩ := h; exact { hg with }

theorem BlockStep.inZone {v v' : Vol} (h : BlockStep v v') (b : Nat) :
    v'.InZone b ↔ v.InZone b := by
  obtain ⟨_, _, _, _, rfl⟩ := h; exact Iff.rfl

theorem gas_new_block_blockStep (v : Vol) : BlockStep v (gas_new_block v).2.2 := by
  unfold gas_new_block
  split
  · exact ⟨_, _, _, _, rfl⟩
  · exact BlockStep.refl v

theorem gas_free_block_blockStep (v : Vol) (b : Nat) : BlockStep v (gas_free_block v b) := by
  unfold gas_free_block
  dsimp only
  split_ifs
  · exact BlockStep.refl v
  · exact BlockStep.refl v
  · exact ⟨_, _, _, _, rfl⟩

/-- `gas_free_block` by block number. -/
theorem inUse_gas_free_block {v : Vol} (hg : MapGeometry v) (b b' : Nat) :
    (gas_free_block v b').inUse b = if b = b' ∧ v.InZone b' then false else v.inUse b := by
  rw [gas_free_block_eq hg]
  by_cases hz : v.InZone b'
  · rw [if_pos hz]
    simp only [Vol.inUse, write_bit_block, hz, and_true]
  · rw [if_neg hz, if_neg (fun h => hz h.2)]

theorem gas_free_block_words (v : Vol) (b : Nat) : (gas_free_block v b).words = v.words := by
  unfold gas_free_block
  dsimp only
  split_ifs <;> rfl

/-! ## 3. Inodes

The inode map has the same form.  A new inode gets its number, its
owner, its mode and the times here, and its operation table later, by the functions that call
`gas_new_inode`. -/

/-- `gas_get_inode`: the block read and the index of the record's first word in it. -/
def gas_get_inode (v : Vol) (ino : Nat) : Option (Nat × Nat) × Vol :=
  let block := gas_inode_block v.sbi ino
  let offset := gas_inode_offset v.sbi ino
  match sb_bread v with
  | (true, v) => (some (block, offset / 4), v)
  | (false, v) => (none, v)

/-- Store one word of a block. -/
def write_word (words : Nat → Nat → Nat) (b i x : Nat) : Nat → Nat → Nat :=
  fun b' i' => if b' = b ∧ i' = i then x else words b' i'

/-- `gas_clear_inode`: `i_nlink = 0` and `i_mode = 0` in the on-disk record.  The two 16-bit fields
are the record's first word.  If the block cannot be read, the record stays as it is. -/
def gas_clear_inode (v : Vol) (ino : Nat) : Vol :=
  match gas_get_inode v ino with
  | (some (block, w), v) => { v with words := write_word v.words block w 0 }
  | (none, v) => v

/-- `gas_free_inode`: the range checks, then the record on the device is cleared and the bit of the map.  The check is `ino < 1 || ino > s_ninodes`, so `s_ninodes` itself is taken for a number. -/
def gas_free_inode (v : Vol) (inode : Inode) : Vol :=
  let k := v.s_blocksize_bits + 3
  let ino := inode.i_ino
  if ino < 1 ∨ v.sbi.s_ninodes < ino then v
  else
    let bit := ino % 2 ^ k
    let idx := ino / 2 ^ k
    if v.sbi.s_iam_blocks ≤ idx then v
    else
      let v := gas_clear_inode v inode.i_ino
      { v with iam := write_bit v.iam idx bit false }

/-- `inode_init_owner` on the inode that `new_inode` returns (`i_nlink` is 1, the rest is
cleared): the owner, and the group and set-gid bit of a set-gid directory. -/
def inode_init_owner (v : Vol) (dir : Inode) (mode : BitVec 16) : Inode :=
  let inherit := dir.i_mode &&& S_ISGID != 0
  { i_ino := 0
    i_mode := if inherit && S_ISDIR mode then mode ||| S_ISGID else mode
    i_nlink := 1
    i_uid := v.env.fsuid
    i_gid := if inherit then dir.i_gid else v.env.fsgid
    i_size := 0
    i_atime := 0
    i_mtime := 0
    i_ctime := 0
    i_rdev := 0
    i_op := .none
    blkaddr := fun _ => 0
    pages := fun _ _ => 0
    dead := false }

/-- `gas_new_inode`: an inode from the VFS, a number from the map, the owner and the present time.
Without a clear bit the inode is dropped again and the result is `-ENOSPC`. -/
def gas_new_inode (v : Vol) (dir : Inode) (mode : BitVec 16) :
    Option Errno × Option Inode × Vol :=
  -- new_inode(sb)
  let ok := v.env.mem v.tick
  let v := { v with tick := v.tick + 1 }
  if ok = false then (some .ENOMEM, none, v)
  else
    match map_search v.iam v.sbi.s_bits_per_block v.s_iam_last v.sbi.s_iam_blocks v.s_iam_last with
    | none => (some .ENOSPC, none, v)
    | some (i, bit) =>
      let ino := bit + u32 (i * v.sbi.s_bits_per_block)
      let v := { v with iam := write_bit v.iam i bit true, s_iam_last := i }
      let inode := inode_init_owner v dir mode
      (none, some { inode with i_ino := ino, i_atime := v.now, i_mtime := v.now, i_ctime := v.now },
        v)

/-- The inode map by inode number. -/
def Vol.inodeInUse (v : Vol) (ino : Nat) : Bool := v.iam (ino / 32768) (ino % 32768)

/-- Every bit of the inode map is set: no inode is free. -/
def Vol.IamFull (v : Vol) : Prop :=
  ∀ i < v.sbi.s_iam_blocks, ∀ bit < v.sbi.s_bits_per_block, v.iam i bit = true

/-- The inode numbers the map has a bit for. -/
def Vol.inoLimit (v : Vol) : Nat := v.sbi.s_iam_blocks * 32768

/-- **`gas_new_inode` returns an inode under a free number and marks it, or fails** for lack of
memory or of a clear bit.  The bound on `inoLimit` keeps the number from wrapping. -/
theorem gas_new_inode_cases {v : Vol} (hg : Geometry v) (hlim : v.inoLimit ≤ 4294967296)
    (dir : Inode) (mode : BitVec 16) :
    (∃ ino hint, gas_new_inode v dir mode =
        (none,
          some { inode_init_owner v dir mode with
            i_ino := ino, i_atime := v.env.now (v.tick + 1), i_mtime := v.env.now (v.tick + 1),
            i_ctime := v.env.now (v.tick + 1) },
          { v with tick := v.tick + 1, iam := write_bit v.iam (ino / 32768) (ino % 32768) true,
                   s_iam_last := hint }) ∧
        ino < v.inoLimit ∧ v.inodeInUse ino = false ∧ v.env.mem v.tick = true) ∨
      (∃ e, gas_new_inode v dir mode = (some e, none, { v with tick := v.tick + 1 }) ∧
        (v.env.mem v.tick = false ∨ v.IamFull)) := by
  unfold gas_new_inode
  by_cases hm : v.env.mem v.tick = false
  · exact Or.inr ⟨.ENOMEM, by simp [hm], Or.inl hm⟩
  · simp only [hm]
    cases h : map_search v.iam v.sbi.s_bits_per_block v.s_iam_last v.sbi.s_iam_blocks
        v.s_iam_last with
    | none => exact Or.inr ⟨.ENOSPC, rfl, Or.inr ((map_search_eq_none_iff _ _ _).mp h)⟩
    | some p =>
      obtain ⟨i, bit⟩ := p
      obtain ⟨hbit, hclear⟩ := map_search_some h
      rw [hg.bits_per_block] at hbit
      have hi := i.isLt
      rw [Vol.inoLimit] at hlim
      have hnum : bit + u32 (i * v.sbi.s_bits_per_block) = i * 32768 + bit := by
        rw [hg.bits_per_block, u32_of_lt (n := i * 32768) (by omega)]; omega
      obtain ⟨hdiv, hmod⟩ := split_block (i := i) hbit
      refine Or.inl ⟨i * 32768 + bit, i, ?_, ?_, ?_, ?_⟩
      · simp only [hnum, hdiv, hmod]; rfl
      · rw [Vol.inoLimit]; omega
      · rw [Vol.inodeInUse, hdiv, hmod]; exact hclear
      · trivial

/-- Whatever the map holds, `gas_new_inode` changes the inode map only, and a new inode has no
pointers. -/
theorem gas_new_inode_result (v : Vol) (dir : Inode) (mode : BitVec 16) :
    (∃ iam hint, (gas_new_inode v dir mode).2.2 =
        { v with iam := iam, s_iam_last := hint, tick := v.tick + 1 }) ∧
      ∀ inode, (gas_new_inode v dir mode).2.1 = some inode → inode.blkaddr = fun _ => 0 := by
  unfold gas_new_inode
  dsimp only
  split
  · exact ⟨⟨_, _, rfl⟩, fun inode h => by simp at h⟩
  · split
    · exact ⟨⟨_, _, rfl⟩, fun inode h => by simp at h⟩
    · refine ⟨⟨_, _, rfl⟩, fun inode h => ?_⟩
      rw [← Option.some.inj h]
      rfl

/-- `gas_clear_inode` clears the first word of the record it takes for the inode's, if the block can
be read. -/
theorem gas_clear_inode_words (v : Vol) (ino : Nat) :
    gas_clear_inode v ino =
      { v with
        words := if v.env.bread v.tick = true then
          write_word v.words (gas_inode_block v.sbi ino) (gas_inode_offset v.sbi ino / 4) 0
          else v.words
        tick := v.tick + 1 } := by
  unfold gas_clear_inode gas_get_inode sb_bread
  cases v.env.bread v.tick with
  | true => rfl
  | false => rfl

/-- It writes one word of the block that holds the record, or nothing. -/
theorem gas_clear_inode_eq (v : Vol) (ino : Nat) :
    ∃ words, gas_clear_inode v ino = { v with words := words, tick := v.tick + 1 } ∧
      ∀ b i, b ≠ gas_inode_block v.sbi ino → words b i = v.words b i := by
  refine ⟨_, gas_clear_inode_words v ino, fun b i hb => ?_⟩
  split_ifs
  · exact if_neg fun h => hb h.1
  · rfl

/-- The numbers that `gas_free_inode` does not refuse.  The number `s_ninodes` is one of them when the
last map block has padding. -/
def Vol.Frees (v : Vol) (ino : Nat) : Prop := 1 ≤ ino ∧ ino ≤ v.sbi.s_ninodes ∧ ino < v.inoLimit

/-- What `gas_free_inode` does with a number it refuses, and with one it does not. -/
theorem gas_free_inode_cases {v : Vol} (hg : Geometry v) (inode : Inode) :
    (¬v.Frees inode.i_ino ∧ gas_free_inode v inode = v) ∨
      (v.Frees inode.i_ino ∧ gas_free_inode v inode =
        { v with
          words := (gas_clear_inode v inode.i_ino).words
          tick := v.tick + 1
          iam := write_bit v.iam (inode.i_ino / 32768) (inode.i_ino % 32768) false }) := by
  unfold gas_free_inode Vol.Frees Vol.inoLimit
  simp only [hg.two_pow_k]
  split_ifs with h1 h2
  · exact Or.inl ⟨by omega, rfl⟩
  · exact Or.inl ⟨by omega, rfl⟩
  · refine Or.inr ⟨by omega, ?_⟩
    rw [gas_clear_inode_words]

/-- **`gas_free_inode` clears the bit of its number and touches one block of the inode list**,
for the numbers the inode list has a record for. -/
theorem gas_free_inode_eq {v : Vol} (hg : Geometry v) (inode : Inode)
    (hlo : 1 ≤ inode.i_ino) (hhi : inode.i_ino ≤ v.sbi.s_ninodes)
    (hlim : inode.i_ino < v.inoLimit) :
    ∃ words, gas_free_inode v inode =
        { v with words := words, tick := v.tick + 1,
                 iam := write_bit v.iam (inode.i_ino / 32768) (inode.i_ino % 32768) false } ∧
      ∀ b i, b ≠ gas_inode_block v.sbi inode.i_ino → words b i = v.words b i := by
  obtain ⟨words, heq, hframe⟩ := gas_clear_inode_eq v inode.i_ino
  rcases gas_free_inode_cases hg inode with ⟨hno, -⟩ | ⟨-, he⟩
  · exact absurd ⟨hlo, hhi, hlim⟩ hno
  · exact ⟨words, he.trans (by rw [heq]), hframe⟩

end GasFs
