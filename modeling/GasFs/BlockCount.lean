/-
# How many blocks a file takes: `gas_blocks`

`gas_blocks` computes from a size how many blocks the file takes, data and indirect blocks together,
by a loop of rounded divisions.  `gas_getattr` shows the number to users.

The tree of `block_to_path` is the forest of `Lib/LevelTree.lean` with six direct leaves and three
levels (`block_to_path_eq_path`), and the loop is its count of inner nodes (`gas_blocks_loop_eq`).  So
the loop gives the number of distinct indirect blocks on the paths (`gas_blocks_eq`).

Writing the blocks allocates each of these once, in any order and for every block size, as long as
`alloc_branch` can use what it takes: it keeps the number of an indirect block in an `int`, so a
block from `2 ^ 31` on is never zeroed, and what is read back from it is stale.  `LowIndirect` says,
of the order of writing and the queue of free blocks, that no such block becomes an indirect one.
`Written` is the invariant, `Written.step` what one call does, `write_blocks_written` the run.
`stale_blocks_differ` is a run outside the condition that takes a block too few.
-/
import GasFs.FileMap
import GasFs.Dir.Room
import GasFs.Itree.Range
import GasFs.Lib.LevelTree
import Mathlib.Order.Interval.Finset.Nat

namespace GasFs

open PtrTree LevelTree

/-! ## 1. `gas_blocks`

The variables are `unsigned`, so every sum is reduced modulo `2 ^ 32`.  The reduction is a parameter
here, in order to say that it makes no difference. -/

/-- The loop of `gas_blocks`, with `i` rounds before it ends.  The results of the additions go
through `wrap`. -/
def gas_blocks_loop (wrap : Nat → Nat) (n : Nat) : Nat → Nat → Nat → Nat → Nat
  | 0, _, _, res => res
  | i + 1, direct, blocks, res =>
    if direct < blocks then
      let blocks := blocks - direct
      let blocks := wrap (blocks + (n - 1))
      let blocks := blocks / n
      gas_blocks_loop wrap n i 1 blocks (wrap (res + blocks))
    else res

/-- `gas_blocks` over an arithmetic that wraps in some way.  With the identity for `wrap` it is the
same computation over the natural numbers. -/
def gas_blocks_with (wrap : Nat → Nat) (size : Nat) (v : Vol) : Nat :=
  let s_blocksize := 2 ^ v.s_blocksize_bits
  let blocks := wrap ((size + s_blocksize - 1) >>> v.s_blocksize_bits)
  gas_blocks_loop wrap (s_blocksize / 4) (DEPTH - 1) DIRECT blocks blocks

/-- `gas_blocks`: its variables are `unsigned`. -/
def gas_blocks (size : Nat) (v : Vol) : Nat := gas_blocks_with u32 size v

/-- `stat->blocks` of `gas_getattr`, in sectors of 512 bytes.  It is what `ls -s` and `du` show. -/
def gas_getattr_blocks (size : Nat) (v : Vol) : Nat :=
  2 ^ v.s_blocksize_bits / 512 * gas_blocks size v

/-- The logical blocks of a file: `ceil (size / s_blocksize)`.  The last block of a file may be
filled in part. -/
def file_blocks (size : Nat) (v : Vol) : Nat :=
  (size + 2 ^ v.s_blocksize_bits - 1) / 2 ^ v.s_blocksize_bits

/-- The indirect blocks on the paths of the first `n` logical blocks, each named by the path to it.
A set of paths counts each block once, however many of the logical blocks are below it. -/
def indirect_blocks (v : Vol) (n : Nat) : Finset (List Nat) :=
  (Finset.range n).biUnion fun b => above (block_to_path v b)

/-- The loop counts the inner nodes, as long as nothing reaches `2 ^ 32`: each round is one level,
with the parents of the level before. -/
theorem gas_blocks_loop_eq {wrap : Nat → Nat} (hwrap : ∀ x < 4294967296, wrap x = x) {N : Nat}
    (hN : 0 < N) : ∀ (i direct blocks res : Nat), blocks + N ≤ 4294967296 →
      res + inner_count N i direct blocks < 4294967296 →
      gas_blocks_loop wrap N i direct blocks res = res + inner_count N i direct blocks := by
  intro i
  induction i with
  | zero => exact fun direct blocks res _ _ => rfl
  | succ i ih =>
    intro direct blocks res hfit hres
    rw [gas_blocks_loop]
    split
    · next hlt =>
      have hle := parents_le hN direct blocks
      have hround : wrap (blocks - direct + (N - 1)) / N = parents N direct blocks := by
        rw [hwrap _ (by omega), parents]
      rw [inner_count] at hres
      dsimp only
      rw [hround, hwrap _ (by omega), ih 1 _ _ (by omega) (by omega), inner_count, Nat.add_assoc]
    · next hge =>
      rw [inner_count_of_le hN _ (Nat.not_lt.mp hge), Nat.add_zero]

/-! ## 2. The tree of `block_to_path`

The running remainders of the source against the recursion of the forest. -/

/-- **Below the capacity the paths are those of a forest** with six direct leaves and trees of one,
two and three levels. -/
theorem block_to_path_eq_path {v : Vol} (hN : 0 < INDIRCOUNT v) {b : Nat} (hb : b < v.sbi.s_nblocks)
    (hcap : b < tree_capacity (INDIRCOUNT v)) :
    block_to_path v b = path (INDIRCOUNT v) 3 0 6 b := by
  unfold block_to_path
  unfold tree_capacity at hcap
  simp only [Int.toNat_natCast, DIRECT] at hcap ⊢
  generalize INDIRCOUNT v = N at *
  rw [if_neg (by omega), if_neg (by omega)]
  rcases Nat.lt_or_ge b 6 with h0 | h0
  · rw [if_pos h0, path_direct h0, Nat.zero_add]
  rw [if_neg (Nat.not_lt.mpr h0), path_below h0]
  obtain ⟨x, rfl⟩ : ∃ x, b = 6 + x := ⟨b - 6, by omega⟩
  simp only [Nat.add_sub_cancel_left]
  rcases Nat.lt_or_ge x N with h1 | h1
  · rw [if_pos h1, Nat.div_eq_of_lt h1, path_direct Nat.one_pos, Nat.mod_eq_of_lt h1]
    rfl
  rw [if_neg (Nat.not_lt.mpr h1)]
  have hp : 1 ≤ x / N := (Nat.le_div_iff_mul_le hN).mpr (by omega)
  have hsub : (x - N) / N = x / N - 1 := by
    have := Nat.sub_mul_div x N 1
    rwa [Nat.mul_one] at this
  have hmod : (x - N) % N = x % N := (Nat.mod_eq_sub_mod h1).symm
  rw [path_below hp]
  rcases Nat.lt_or_ge (x - N) (N * N) with h2 | h2
  · have hq : x / N - 1 < N := by
      rw [← hsub]
      exact (Nat.div_lt_iff_lt_mul hN).mpr h2
    rw [if_pos h2, hsub, hmod, Nat.div_eq_of_lt hq, path_direct Nat.one_pos, Nat.mod_eq_of_lt hq]
    rfl
  have hq : 1 ≤ (x / N - 1) / N := by
    rw [← hsub, Nat.le_div_iff_mul_le hN, Nat.one_mul, Nat.le_div_iff_mul_le hN]
    exact h2
  have hsub2 : (x - N - N * N) / N = x / N - 1 - N := by
    rw [Nat.sub_mul_div, hsub]
  have hmod2 : (x - N - N * N) % N = x % N := by
    rw [Nat.sub_mul_mod h2, hmod]
  have hpar : N ≤ x / N - 1 := by
    have := (Nat.le_div_iff_mul_le hN).mp hq
    rwa [Nat.one_mul] at this
  have hsub3 : (x / N - 1 - N) / N = (x / N - 1) / N - 1 := by
    have := Nat.sub_mul_div (x / N - 1) N 1
    rwa [Nat.mul_one] at this
  have hmod3 : (x / N - 1 - N) % N = (x / N - 1) % N := (Nat.mod_eq_sub_mod hpar).symm
  have htop : (x / N - 1) / N - 1 < N := by
    rw [← hsub3, ← hsub2, Nat.div_lt_iff_lt_mul hN, Nat.div_lt_iff_lt_mul hN]
    omega
  rw [if_neg (Nat.not_lt.mpr h2), hsub2, hmod2, hsub3, hmod3, path_below hq, Nat.div_eq_of_lt htop,
    path_direct Nat.one_pos, Nat.mod_eq_of_lt htop]
  rfl

/-! ## 3. The count

What the loop computes, in terms of paths. -/

theorem INDIRCOUNT_bounds {v : Vol} (hlo : 9 ≤ v.s_blocksize_bits) (hhi : v.s_blocksize_bits ≤ 12) :
    128 ≤ INDIRCOUNT v ∧ INDIRCOUNT v ≤ 1024 := by
  rw [INDIRCOUNT]
  generalize v.s_blocksize_bits = bits at hlo hhi
  obtain rfl | rfl | rfl | rfl : bits = 9 ∨ bits = 10 ∨ bits = 11 ∨ bits = 12 := by omega
  all_goals decide

/-- The pointers of a block, as `gas_blocks` computes them. -/
theorem blocksize_div_four {v : Vol} (hlo : 9 ≤ v.s_blocksize_bits) :
    2 ^ v.s_blocksize_bits / 4 = INDIRCOUNT v := by
  obtain ⟨k, hk⟩ := Nat.exists_eq_add_of_le' (Nat.le_trans (by omega : 2 ≤ 9) hlo)
  rw [INDIRCOUNT, hk, Nat.add_sub_cancel, Nat.pow_add]
  exact Nat.mul_div_cancel _ (by decide)

/-- A tree has fewer than `2 ^ 31` slots for data. -/
theorem tree_capacity_lt {N : Nat} (hN : N ≤ 1024) : tree_capacity N < 2147483648 := by
  have h2 := Nat.mul_le_mul hN hN
  have h3 := Nat.mul_le_mul h2 hN
  rw [tree_capacity, DIRECT]
  omega

/-- The path of a block that the tree has a slot for ends in a data slot. -/
theorem block_to_path_isLeaf_of_lt {v : Vol} (hN : INDIRCOUNT v ≤ 1024) {b : Nat}
    (hb : b < v.sbi.s_nblocks) (hcap : b < tree_capacity (INDIRCOUNT v)) :
    IsLeaf (block_to_path v b) := by
  have hpos : 0 < INDIRCOUNT v := Nat.two_pow_pos _
  have hlen : block_to_path v b ≠ [] ∧
      (block_to_path v b).length = (block_to_path v b).headD 0 - 5 + 1 := by
    unfold block_to_path
    rw [if_neg (by omega), if_neg (by omega)]
    dsimp only
    split_ifs with h
    · rw [Int.toNat_natCast] at h ⊢
      exact ⟨List.cons_ne_nil b [], by rw [List.headD_cons, List.length_singleton, Nat.sub_eq_zero_of_le
        (Nat.le_of_lt_succ h)]⟩
    · exact ⟨List.cons_ne_nil _ _, rfl⟩
    · exact ⟨List.cons_ne_nil _ _, rfl⟩
    · exact ⟨List.cons_ne_nil _ _, rfl⟩
  have hrange := ((block_to_path_inRange_iff hpos b).mpr (Or.inr hcap)).resolve_left hlen.1
  obtain ⟨-, hhead, htail⟩ := hrange
  refine ⟨?_, hlen.2⟩
  obtain ⟨i, r, he⟩ := List.exists_cons_of_ne_nil hlen.1
  rw [he] at hlen hhead htail ⊢
  have hr := hlen.2
  rw [List.headD_cons, List.length_cons] at hr
  exact isPath_cons.mpr ⟨hhead, by omega, fun j hj => Nat.lt_of_lt_of_le (htail j hj) hN⟩

/-- The indirect blocks are the inner nodes of the forest.  So their number is known from the theory
of the forest. -/
theorem indirect_blocks_eq {v : Vol} (hN : 0 < INDIRCOUNT v) {n : Nat} (hn : n ≤ v.sbi.s_nblocks)
    (hcap : n ≤ tree_capacity (INDIRCOUNT v)) :
    indirect_blocks v n = inner (INDIRCOUNT v) 3 0 6 n := by
  refine Finset.biUnion_congr rfl fun b hb => ?_
  have hlt := Finset.mem_range.mp hb
  rw [block_to_path_eq_path hN (Nat.lt_of_lt_of_le hlt hn) (Nat.lt_of_lt_of_le hlt hcap)]

section
variable {v : Vol} {size : Nat} (hlo : 9 ≤ v.s_blocksize_bits) (hhi : v.s_blocksize_bits ≤ 12)
  (hcap : file_blocks size v ≤ tree_capacity (INDIRCOUNT v))
  (hn : file_blocks size v ≤ v.sbi.s_nblocks)
include hlo hhi hcap hn

/-- **`gas_blocks` counts data and indirect blocks**, and nothing on the way reaches `2 ^ 32`: over
every arithmetic that is exact below, the result is the same. -/
theorem gas_blocks_eq {wrap : Nat → Nat} (hwrap : ∀ x < 4294967296, wrap x = x) :
    gas_blocks_with wrap size v =
      file_blocks size v + (indirect_blocks v (file_blocks size v)).card := by
  obtain ⟨hN, hN'⟩ := INDIRCOUNT_bounds hlo hhi
  have hsmall := tree_capacity_lt hN'
  have hle := inner_count_le (Nat.le_trans (by omega) hN) 3 (file_blocks size v) (by omega : 1 ≤ 6)
  rw [indirect_blocks_eq (by omega) hn hcap, inner_card (by omega), gas_blocks_with,
    blocksize_div_four hlo, Nat.shiftRight_eq_div_pow, ← file_blocks]
  generalize INDIRCOUNT v = N at *
  generalize file_blocks size v = B at *
  rw [hwrap B (by omega)]
  exact gas_blocks_loop_eq hwrap (by omega) 3 6 B B (by omega) (by omega)

end

/-! ## 4. Writing the blocks

The count is of paths; that it is the number of blocks taken has to be shown of the allocator. -/

/-- Writing logical blocks one after the other, as long as each one gets its block.  It stops at the
first block for which there is none. -/
def write_blocks (c : Ctx) : List Nat → Option Ctx
  | [] => some c
  | b :: bs =>
    let r := gas_get_block c b true
    if r.err = none then write_blocks r.c bs else none

/-- The slots on a path. -/
def slots_on (o : List Nat) : Finset (List Nat) :=
  (Finset.range o.length).image fun l => o.take (l + 1)

theorem mem_slots_on {o q : List Nat} : q ∈ slots_on o ↔ q <+: o ∧ q ≠ [] := by
  rw [slots_on, Finset.mem_image]
  constructor
  · rintro ⟨l, hl, rfl⟩
    have hlt := Finset.mem_range.mp hl
    refine ⟨ List.take_prefix _ _, List.ne_nil_of_length_pos ?_⟩
    rw [List.length_take]
    omega
  · rintro ⟨hpre, hne⟩
    have hpos := List.length_pos_of_ne_nil hne
    have hle := hpre.length_le
    refine ⟨q.length - 1, Finset.mem_range.mpr (by omega), ?_⟩
    rw [Nat.sub_add_cancel hpos]
    exact take_of_pre hpre

theorem isPath_of_mem_slots {o q : List Nat} (ho : shape.IsPath o) (hq : q ∈ slots_on o) :
    shape.IsPath q := by
  obtain ⟨⟨s, rfl⟩, hne⟩ := mem_slots_on.mp hq
  exact Shape.IsPath.left hne ho

/-- The null slots on a path are those it misses. -/
theorem card_null_slots (c : Ctx) (o : List Nat) :
    ((slots_on o).filter fun q => c.val q = 0).card = c.missing o := by
  have hinj : Set.InjOn (fun l => o.take (l + 1))
      ((Finset.range o.length).filter fun l => c.val (o.take (l + 1)) = 0) := by
    intro l hl l' hl' he
    have hlt := Finset.mem_range.mp (Finset.mem_filter.mp (Finset.mem_coe.mp hl)).1
    have hlt' := Finset.mem_range.mp (Finset.mem_filter.mp (Finset.mem_coe.mp hl')).1
    have hlen := congrArg List.length he
    simp only [List.length_take] at hlen
    omega
  rw [slots_on, Finset.filter_image, Finset.card_image_of_injOn hinj, Ctx.missing,
    List.countP_eq_length_filter]
  rfl

/-- The slots on the paths of the blocks of a list. -/
def slots_of (v : Vol) (bs : List Nat) : Finset (List Nat) :=
  bs.toFinset.biUnion fun b => slots_on (block_to_path v b)

/-- The slots on the path of a block that lie on no path of the blocks before it.  Writing it takes
as many blocks. -/
def new_slots (v : Vol) (before : List Nat) (b : Nat) : Nat :=
  (slots_on (block_to_path v b) \ slots_of v before).card

/-- **No block from `2 ^ 31` on becomes an indirect block** when blocks are written one after the
other: the new slots on a path take the first blocks of the queue, and all but the last of these
slots are an indirect block's.  The condition is a recursion over the blocks, with the queue as it
is when each of them is written. -/
def LowIndirect (v : Vol) : List Nat → List Nat → List Nat → Prop
  | _, _, [] => True
  | before, queue, b :: bs =>
    LowFirst queue (new_slots v before b - 1) ∧
      LowIndirect v (b :: before) (queue.drop (new_slots v before b)) bs

/-- It holds of any order if all free blocks are below. -/
theorem lowIndirect_of_lt {v : Vol} : ∀ (bs before queue : List Nat),
    (∀ x ∈ queue, x < 2147483648) → LowIndirect v before queue bs := by
  intro bs
  induction bs with
  | nil => exact fun before queue _ => trivial
  | cons b bs ih =>
    exact fun before queue hq => ⟨fun x hx => hq x (List.mem_of_mem_take hx),
      ih _ _ fun x hx => hq x (List.mem_of_mem_drop hx)⟩

/-- So on every volume of `2 ^ 31` blocks at most. -/
theorem lowIndirect_of_small {v : Vol} (hg : MapGeometry v) (hp : v.MapPadded)
    (hsmall : v.sbi.s_nblocks ≤ 2147483648) (bs : List Nat) : LowIndirect v [] v.free_order bs :=
  lowIndirect_of_lt bs [] _ fun _ hx =>
    Nat.lt_of_lt_of_le (zone_of_mem_free_order hg hp hx).2 hsmall

/-- What holds when the blocks `bs` of an empty file have been written: the slots that are set are
those on their paths, and each of these took one free block.  Nothing depends on the order, since it
is a set of slots. -/
structure Written (c₀ : Ctx) (bs : List Nat) (c : Ctx) : Prop where
  tree : TreeSound c
  vol : BlockStep c₀.v c.v
  set_iff : ∀ q, shape.IsPath q → (c.val q ≠ 0 ↔ q ∈ slots_of c₀.v bs)
  taken : c.v.free.card + (slots_of c₀.v bs).card = c₀.v.free.card

/-- A graft takes as many free blocks as it has new ones. -/
theorem Graft.free_card {o : List Nat} {m : Nat} {nb : List Nat} {c c' : Ctx}
    (h : Graft o m nb c c') : c'.v.free.card + nb.length = c.v.free.card := by
  have hsub : nb.toFinset ⊆ c.v.free := fun b hb =>
    mem_free.mpr (h.fresh b (List.mem_toFinset.mp hb))
  have heq : c'.v.free = c.v.free \ nb.toFinset := by
    ext b
    have hm := h.marks b
    rw [Finset.mem_sdiff, mem_free, mem_free, h.vol.inZone, List.mem_toFinset, ← Bool.not_eq_true,
      hm, ← Bool.not_eq_true]
    tauto
  rw [heq, ← List.toFinset_card_of_nodup h.nodup]
  exact Finset.card_sdiff_add_card_eq_card hsub

theorem slots_of_cons (v : Vol) (b : Nat) (bs : List Nat) :
    slots_of v (b :: bs) = slots_on (block_to_path v b) ∪ slots_of v bs := by
  rw [slots_of, List.toFinset_cons, Finset.biUnion_insert, slots_of]

/-- A slot on the path to a slot that is set is set.  A path through a null pointer has the value
null. -/
theorem val_ne_zero_above {c : Ctx} {q o : List Nat} (hpre : q <+: o) (hq : q ≠ [])
    (ho : c.val o ≠ 0) : c.val q ≠ 0 :=
  fun hz => ho (val_null_below hq hz hpre)

/-- After a graft the slots on the path are set, and else those that were. -/
theorem Graft.val_ne_zero_iff {o : List Nat} {m : Nat} {nb : List Nat} {c c' : Ctx}
    (h : Graft o m nb c c') (hc : TreeSound c) (ho : shape.IsPath o) {q : List Nat}
    (hq : shape.IsPath q) : c'.val q ≠ 0 ↔ q ∈ slots_on o ∨ c.val q ≠ 0 := by
  have hend := h.val_path_ne_zero hc ho
  constructor
  · intro hne
    rcases h.val_cases hq with ⟨hold, -⟩ | ⟨hpre, -, -, -⟩
    · exact Or.inr (hold ▸ hne)
    · exact Or.inl (mem_slots_on.mpr ⟨hpre, hq.ne_nil⟩)
  · rintro (hon | hne)
    · obtain ⟨hpre, hnil⟩ := mem_slots_on.mp hon
      exact val_ne_zero_above hpre hnil hend
    · rw [h.val_of_ne ho hq hne]
      exact hne

/-- A tree without a pointer is sound. -/
theorem TreeSound.of_empty {c : Ctx} (hg : MapGeometry c.v) (hp : c.v.MapPadded)
    (hempty : ∀ i < 9, c.inode.blkaddr i = 0) : TreeSound c := by
  have hz : ∀ q, shape.IsPath q → c.val q = 0 := fun q hq => by
    cases q with
    | nil => rfl
    | cons i r => exact val_null_below (List.cons_ne_nil i []) (hempty i (isPath_cons.mp hq).1) ⟨r, rfl⟩
  exact ⟨hg, hp, fun q _ hq _ hne _ => absurd (hz q hq) hne, fun q hq hne => absurd (hz q hq) hne,
    fun q hq hne => absurd (hz q hq) hne⟩

section
variable {c₀ c : Ctx} {bs : List Nat} {b : Nat}

/-- An empty file, with nothing written. -/
theorem Written.start (hc : TreeSound c) (hempty : ∀ i < 9, c.inode.blkaddr i = 0) :
    Written c [] c where
  tree := hc
  vol := BlockStep.refl _
  set_iff q hq := by
    have hz : c.val q = 0 := by
      cases q with
      | nil => rfl
      | cons i r => exact val_null_below (List.cons_ne_nil i []) (hempty i (isPath_cons.mp hq).1) ⟨r, rfl⟩
    exact iff_of_false (fun hne => hne hz) (Finset.notMem_empty q)
  taken := rfl

/-- **One more block**: written again it takes nothing; otherwise it takes the first free blocks, one
for each slot of its path that no other path had, and fails when there are too few. -/
theorem Written.step (h : Written c₀ bs c) (hio : ∀ n, c₀.v.env.bread n = true)
    (hleaf : IsLeaf (block_to_path c₀.v b))
    (hlow : LowFirst c.v.free_order (new_slots c₀.v bs b - 1)) :
    ((gas_get_block c b true).err = none →
        Written c₀ (b :: bs) (gas_get_block c b true).c ∧
          (gas_get_block c b true).c.v.free_order = c.v.free_order.drop (new_slots c₀.v bs b)) ∧
      ((gas_get_block c b true).err = none ↔ (slots_of c₀.v (b :: bs)).card ≤ c₀.v.free.card) := by
  have hpath := block_to_path_step h.vol b
  have hio' : ∀ n, c.v.env.bread n = true := by
    rw [h.vol.env]
    exact hio
  have htaken := h.taken
  have hset := h.set_iff
  -- the new slots are the null ones
  have hmissing : c.missing (block_to_path c₀.v b) = new_slots c₀.v bs b := by
    rw [← card_null_slots, new_slots]
    congr 1
    ext q
    rw [Finset.mem_filter, Finset.mem_sdiff]
    refine and_congr_right fun hon => ?_
    rw [← hset q (isPath_of_mem_slots hleaf.1 hon), not_not]
  have hsplit : (slots_of c₀.v (b :: bs)).card = new_slots c₀.v bs b + (slots_of c₀.v bs).card := by
    rw [slots_of_cons, new_slots, Finset.card_sdiff_add_card]
  by_cases hz : c.val (block_to_path c₀.v b) = 0
  · rw [← hmissing, ← hpath] at hlow
    have hfilled := gas_get_block_fill h.tree (hpath ▸ hleaf) hio' (hpath ▸ hz) hlow
    rw [hpath] at hfilled
    generalize gas_get_block c b true = r at hfilled ⊢
    cases hfilled with
    | full c' hs hfew => exact ⟨fun he => absurd he (by simp), iff_of_false (by simp) (by omega)⟩
    | grafted c' m nb hg hlen hle hqueue =>
      have hfree := hg.free_card
      refine ⟨fun _ => ⟨⟨hg.sound h.tree, h.vol.trans hg.vol, fun q hq => ?_, ?_⟩, ?_⟩,
        iff_of_true rfl (by omega)⟩
      · rw [hg.val_ne_zero_iff h.tree hleaf.1 hq, hset q hq, slots_of_cons, Finset.mem_union]
      · dsimp only
        omega
      · rw [hqueue, ← hmissing, ← hlen, List.drop_left]
  · obtain ⟨c', ht, heq⟩ := gas_get_block_mapped hio' (hpath ▸ hz) true
    have hnone : new_slots c₀.v bs b = 0 := hmissing ▸ missing_of_mapped hz
    have hold : slots_of c₀.v (b :: bs) = slots_of c₀.v bs := by
      rw [slots_of_cons]
      exact Finset.union_eq_right.mpr (Finset.sdiff_eq_empty_iff_subset.mp (Finset.card_eq_zero.mp hnone))
    rw [heq, hold]
    refine ⟨fun _ => ⟨⟨ht.sound h.tree, h.vol.trans ht.blockStep, fun q hq => ?_, ?_⟩, ?_⟩,
      iff_of_true rfl (by omega)⟩
    · rw [ht.val, hold]
      exact hset q hq
    · obtain ⟨t, rfl⟩ := ht
      rw [hold]
      exact htaken
    · rw [hnone, List.drop_zero]
      exact ht.free_order

/-- **Writing blocks** succeeds exactly when there is a free block for each slot on their paths, and
takes these.  The induction is on the blocks still to come, with those written as a parameter. -/
theorem write_blocks_written (hio : ∀ n, c₀.v.env.bread n = true) : ∀ (bs' bs : List Nat) (c : Ctx),
    Written c₀ bs c → (∀ b ∈ bs', IsLeaf (block_to_path c₀.v b)) →
      LowIndirect c₀.v bs c.v.free_order bs' →
      ((write_blocks c bs').isSome ↔ (slots_of c₀.v (bs' ++ bs)).card ≤ c₀.v.free.card) ∧
        ∀ c', write_blocks c bs' = some c' → Written c₀ (bs'.reverse ++ bs) c' := by
  intro bs'
  induction bs' with
  | nil =>
    intro bs c h _ _
    have htaken := h.taken
    refine ⟨iff_of_true rfl (by rw [List.nil_append]; omega), fun c' he => ?_⟩
    obtain rfl := Option.some.inj he
    exact h
  | cons b bs' ih =>
    intro bs c h hb hlow
    obtain ⟨hfirst, hrest⟩ := hlow
    obtain ⟨hnext, hiff⟩ := h.step hio (hb b List.mem_cons_self) hfirst
    have hsame : slots_of c₀.v (bs' ++ b :: bs) = slots_of c₀.v (b :: bs' ++ bs) := by
      rw [slots_of, slots_of, List.toFinset_eq_of_perm _ _ List.perm_middle, List.cons_append]
    rw [write_blocks]
    by_cases he : (gas_get_block c b true).err = none
    · obtain ⟨hwritten, hqueue⟩ := hnext he
      rw [← hqueue] at hrest
      obtain ⟨hsome, hall⟩ := ih (b :: bs) _ hwritten (fun x hx => hb x (List.mem_cons_of_mem b hx)) hrest
      rw [if_pos he, hsome, hsame]
      refine ⟨Iff.rfl, fun c' hc' => ?_⟩
      rw [List.reverse_cons, List.append_assoc]
      exact hall c' hc'
    · have hfew := mt hiff.mpr he
      have hmono : (slots_of c₀.v (b :: bs)).card ≤ (slots_of c₀.v (b :: bs' ++ bs)).card := by
        refine Finset.card_le_card ?_
        rw [← hsame, slots_of, slots_of]
        refine Finset.biUnion_subset_biUnion_of_subset_left _ fun x hx => ?_
        rw [List.mem_toFinset] at hx ⊢
        exact List.mem_append_right bs' hx
      rw [if_neg he]
      exact ⟨iff_of_false (by simp) (by omega), fun c' hc' => absurd hc' (by simp)⟩

end

/-! ## 5. The number that users see

Both halves together, on a volume on which they agree and on one on which they do not. -/

/-- The slots on the paths of the first blocks are those of the blocks and the indirect ones. -/
theorem slots_of_card {v : Vol} (hN : 0 < INDIRCOUNT v) {n : Nat} (hn : n ≤ v.sbi.s_nblocks)
    (hcap : n ≤ tree_capacity (INDIRCOUNT v)) {bs : List Nat} (hbs : bs.Perm (List.range n)) :
    (slots_of v bs).card = n + (indirect_blocks v n).card := by
  have hpath : ∀ b ∈ Finset.range n, block_to_path v b = path (INDIRCOUNT v) 3 0 6 b := by
    intro b hb
    have hlt := Finset.mem_range.mp hb
    exact block_to_path_eq_path hN (Nat.lt_of_lt_of_le hlt hn) (Nat.lt_of_lt_of_le hlt hcap)
  have hslots : slots_of v bs =
      (Finset.range n).image (path (INDIRCOUNT v) 3 0 6) ∪ indirect_blocks v n := by
    rw [slots_of, List.toFinset_eq_of_perm _ _ hbs, List.toFinset_range]
    ext q
    rw [Finset.mem_union, Finset.mem_image, indirect_blocks, Finset.mem_biUnion, Finset.mem_biUnion]
    constructor
    · rintro ⟨b, hb, hq⟩
      obtain ⟨hpre, hne⟩ := mem_slots_on.mp hq
      rcases eq_or_ne q (block_to_path v b) with rfl | hself
      · exact Or.inl ⟨b, hb, (hpath b hb).symm⟩
      · exact Or.inr ⟨b, hb, mem_above.mpr ⟨hpre, hne, hself⟩⟩
    · rintro (⟨b, hb, rfl⟩ | ⟨b, hb, hq⟩)
      · refine ⟨b, hb, mem_slots_on.mpr ?_⟩
        rw [hpath b hb]
        exact ⟨List.prefix_rfl, path_ne_nil _ _ _ _⟩
      · obtain ⟨hpre, hne, -⟩ := mem_above.mp hq
        exact ⟨b, hb, mem_slots_on.mpr ⟨hpre, hne⟩⟩
  have hdisj : Disjoint ((Finset.range n).image (path (INDIRCOUNT v) 3 0 6)) (indirect_blocks v n) := by
    rw [Finset.disjoint_left]
    intro q hq hin
    obtain ⟨b, -, rfl⟩ := Finset.mem_image.mp hq
    rw [indirect_blocks, Finset.mem_biUnion] at hin
    obtain ⟨b', hb', hab⟩ := hin
    rw [hpath b' hb'] at hab
    obtain ⟨hpre, -, hne⟩ := mem_above.mp hab
    exact hne (by rw [path_antichain hpre])
  rw [hslots, Finset.card_union_of_disjoint hdisj,
    Finset.card_image_of_injective _ fun _ _ he => path_inj he, Finset.card_range]

/-- **The block count agrees with the tree.**  For every size that fits, `gas_blocks` is the number of
logical blocks and of different indirect blocks on their paths, no matter how its arithmetic wraps
from `2 ^ 32` on, and `gas_getattr` shows it in sectors.  Writing these blocks to an empty file, in
any order in which no block from `2 ^ 31` on becomes an indirect block, succeeds exactly when as many
blocks are free, and then takes as many. -/
theorem gas_blocks_agrees {v : Vol} {size : Nat} (hlo : 9 ≤ v.s_blocksize_bits)
    (hhi : v.s_blocksize_bits ≤ 12) (hcap : file_blocks size v ≤ tree_capacity (INDIRCOUNT v))
    (hn : file_blocks size v ≤ v.sbi.s_nblocks) :
    (∀ wrap : Nat → Nat, (∀ x < 4294967296, wrap x = x) → gas_blocks_with wrap size v =
        file_blocks size v + (indirect_blocks v (file_blocks size v)).card) ∧
      gas_getattr_blocks size v = 2 ^ v.s_blocksize_bits / 512 *
        (file_blocks size v + (indirect_blocks v (file_blocks size v)).card) ∧
      ∀ (c : Ctx) (bs : List Nat), c.v = v → MapGeometry v → v.MapPadded →
        (∀ i < 9, c.inode.blkaddr i = 0) → (∀ n, v.env.bread n = true) →
        bs.Perm (List.range (file_blocks size v)) → LowIndirect v [] v.free_order bs →
          ((write_blocks c bs).isSome ↔ gas_blocks size v ≤ v.free.card) ∧
            ∀ c', write_blocks c bs = some c' → c'.v.free.card + gas_blocks size v = v.free.card := by
  have hu32 : ∀ x < 4294967296, u32 x = x := fun x hx => Nat.mod_eq_of_lt hx
  obtain ⟨hpos, hle⟩ := INDIRCOUNT_bounds hlo hhi
  refine ⟨fun wrap hwrap => gas_blocks_eq hlo hhi hcap hn hwrap, ?_, ?_⟩
  · rw [gas_getattr_blocks, gas_blocks, gas_blocks_eq hlo hhi hcap hn hu32]
  rintro c bs rfl hg hp hempty hio hbs hlow
  have hcount : gas_blocks size c.v = (slots_of c.v bs).card := by
    rw [slots_of_card (Nat.lt_of_lt_of_le (by decide) hpos) hn hcap hbs]
    exact gas_blocks_eq hlo hhi hcap hn hu32
  have hleaf : ∀ b ∈ bs, IsLeaf (block_to_path c.v b) := fun b hb => by
    have hlt := List.mem_range.mp (hbs.mem_iff.mp hb)
    exact block_to_path_isLeaf_of_lt hle (Nat.lt_of_lt_of_le hlt hn) (Nat.lt_of_lt_of_le hlt hcap)
  have hstart : Written c [] c := Written.start (TreeSound.of_empty hg hp hempty) hempty
  obtain ⟨hsome, hall⟩ := write_blocks_written hio bs [] c hstart hleaf hlow
  rw [List.append_nil] at hsome
  rw [hcount]
  refine ⟨hsome, fun c' hc' => ?_⟩
  have htaken := (hall c' hc').taken
  rwa [List.append_nil, slots_of, List.toFinset_reverse] at htaken

/-- An empty file on the volume of 256 blocks. -/
def plain_file : Ctx where
  v := plain_vol
  inode := small_inode 3 S_IFREG 1 fun _ => 0
  nr := 0

/-- Eight blocks, written from the last to the first, take nine. -/
theorem plain_blocks_agree : gas_blocks 32768 plain_vol = 9 ∧
    ∃ c', write_blocks plain_file [7, 6, 5, 4, 3, 2, 1, 0] = some c' ∧
      c'.v.free.card + 9 = plain_vol.free.card := by
  have hbits : plain_vol.s_blocksize_bits = 12 := rfl
  have hblocks : file_blocks 32768 plain_vol = 8 := by decide
  have hcount : gas_blocks 32768 plain_vol = 9 := by decide
  have hfree : 9 ≤ plain_vol.free.card := by
    have hsub : Finset.Ico 9 256 ⊆ plain_vol.free := by
      intro b hb
      obtain ⟨hge, hlt⟩ := Finset.mem_Ico.mp hb
      refine mem_free.mpr ⟨⟨Nat.le_trans (by decide : 4 ≤ 9) hge, hlt⟩, ?_⟩
      rw [plain_geometry.inUse, Nat.mod_eq_of_lt (by omega)]
      exact decide_eq_false (by omega)
    have hcard := Finset.card_le_card hsub
    rw [Nat.card_Ico] at hcard
    exact Nat.le_trans (by decide) hcard
  have hperm : [7, 6, 5, 4, 3, 2, 1, 0].Perm (List.range (file_blocks 32768 plain_vol)) := by
    rw [hblocks]
    decide
  obtain ⟨-, -, hrun⟩ := @gas_blocks_agrees plain_vol 32768 (by decide) (by decide)
    (by rw [hblocks]; decide) (by rw [hblocks]; decide)
  obtain ⟨hsome, hall⟩ := hrun plain_file _ rfl plain_geometry.map plain_padded (fun _ _ => rfl)
    (fun _ => rfl) hperm (lowIndirect_of_small plain_geometry.map plain_padded (by decide) _)
  rw [hcount] at hsome hall
  obtain ⟨c', hc'⟩ := Option.isSome_iff_exists.mp (hsome.mpr hfree)
  exact ⟨hcount, c', hc', hall c' hc'⟩

/-- A volume of 65537 map blocks.  Eight blocks are free, the first of them `2 ^ 31`, and every block
still has the words of a file that was deleted. -/
def stale_vol : Vol where
  sbi := gas_super_block_fill ⟨MAGIC_NUMBER, 4096, 65537, 1, 1, 2147516416, 64⟩
  s_blocksize_bits := 12
  s_bam_last := ⟨65536, by decide⟩
  s_iam_last := ⟨0, Nat.one_pos⟩
  bam := fun i bit => if i = 65536 then Nat.ble 8 bit else true
  iam := fun _ _ => true
  words := fun _ _ => 70000
  env := ⟨fun _ => true, fun _ => true, fun _ _ => 0, fun _ => true, fun _ => 0, 0, 0⟩
  tick := 0

/-- An empty file on it. -/
def stale_file : Ctx where
  v := stale_vol
  inode := small_inode 3 S_IFREG 1 fun _ => 0
  nr := 0

theorem stale_free_card_le : stale_vol.free.card ≤ 8 := by
  have hsub : stale_vol.free ⊆ (Finset.range 8).image (2147483648 + ·) := by
    intro b hb
    obtain ⟨-, hclear⟩ := mem_free.mp hb
    have hbit : (if b / 32768 = 65536 then Nat.ble 8 (b % 32768) else true) = false := hclear
    have hdiv : b / 32768 = 65536 := by
      by_contra hne
      rw [if_neg hne] at hbit
      exact Bool.false_ne_true hbit.symm
    have hmod : b % 32768 < 8 := by
      rw [if_pos hdiv] at hbit
      exact not_le.mp fun hle => Bool.false_ne_true (hbit.symm.trans (Nat.ble_eq.mpr hle))
    refine Finset.mem_image.mpr ⟨b % 32768, Finset.mem_range.mpr hmod, ?_⟩
    calc 2147483648 + b % 32768 = 32768 * (b / 32768) + b % 32768 := by
          rw [show b / 32768 = 65536 from hdiv]
      _ = b := Nat.div_add_mod b 32768
  exact (Finset.card_le_card hsub).trans (Finset.card_image_le.trans (Finset.card_range 8).le)

/-- **From `2 ^ 31` on the count is wrong.**  Block `2 ^ 31 + 6` becomes the indirect block; another
sector is zeroed in its place, so the pointer of block 7 is read from the stale words and nothing is
allocated for it.  All eight writes succeed, and take fewer blocks than the nine of `gas_blocks`. -/
theorem stale_blocks_differ : gas_blocks 32768 stale_vol = 9 ∧
    ∃ c', write_blocks stale_file (List.range 8) = some c' ∧
      c'.v.free.card + gas_blocks 32768 stale_vol ≠ stale_vol.free.card := by
  have hcount : gas_blocks 32768 stale_vol = 9 := by decide
  have hrun : (write_blocks stale_file (List.range 8)).isSome = true := by decide +kernel
  obtain ⟨c', hc'⟩ := Option.isSome_iff_exists.mp hrun
  refine ⟨hcount, c', hc', fun he => ?_⟩
  have hle := stale_free_card_le
  omega

end GasFs
