/-
# The blocks a new branch reserves, and those it uses

`alloc_branch` keeps the number of a block as an `int`.  The number reaches the 32-bit key of the
level above, which loses nothing, and `sb_getblk`, whose argument is a 64-bit sector: from `2 ^ 31` on
the sign is extended, and the block zeroed is another one.  So the keys, and with them the blocks freed
when one is missing, are the blocks reserved; the blocks filled need not be.

Here `alloc_branch` runs once more with every number recorded that `gas_new_block` returns or
`gas_free_block` is given.  `alloc_branch_logged_eq` says what a call leaves in terms of the queue
`Vol.free_order` of `FreeOrder.lean`, and `usesReserved_iff` for which queues each block is used as it
was reserved.

Two things are recorded, the numbers that `gas_new_block` returns and those passed to
`gas_free_block`; the branch itself shows which blocks are linked and which are filled.  To be used
as reserved means that these four agree.

There are two ways to fail.  A block number from `2 ^ 31` on, in a place where the block becomes an
indirect one, is filled at another sector.  And block number `0`, which no volume hands out as long
as its bit is set, would be taken for a failure of `gas_new_block` and never given back.
-/
import GasFs.FreeOrder
import GasFs.Itree
import Mathlib.Data.List.Infix
import Mathlib.Data.List.TakeWhile

namespace GasFs

/-! ## 1. `alloc_branch` with a log

The copy of the function with the log, and the erasure lemmas. -/

/-- A volume, the blocks that `gas_new_block` has returned and those passed to `gas_free_block`. -/
structure Reserving where
  v : Vol
  reserved : List Nat
  freed : List Nat

/-- `gas_new_block`, recorded when it succeeds. -/
def Reserving.new_block (s : Reserving) : Nat × Reserving :=
  match gas_new_block s.v with
  | (block, none, v) => (block, ⟨v, s.reserved ++ [block], s.freed⟩)
  | (block, some _, v) => (block, { s with v := v })

/-- `gas_free_block`, recorded. -/
def Reserving.free_block (s : Reserving) (block : Nat) : Reserving :=
  ⟨gas_free_block s.v block, s.reserved, s.freed ++ [block]⟩

/-- The loop of `alloc_branch`. -/
def alloc_branch_loop_logged (s : Reserving) (parent : Int) (branch : List Indirect) :
    List Nat → Reserving × List Indirect × Bool
  | [] => (s, branch, true)
  | o :: offsets =>
    let (block, s) := s.new_block
    let nr := int32 block
    if nr = 0 then (s, branch, false)
    else
      let bh := sector_of_int parent
      let key := u32_of_int nr
      let s := { s with v := { s.v with words := fill_block s.v.words bh o key } }
      alloc_branch_loop_logged s nr (branch ++ [⟨.blk bh o, key, some bh⟩]) offsets

/-- `free_keys`. -/
def free_keys_logged (s : Reserving) (branch : List Indirect) : Reserving :=
  branch.foldl (fun s q => s.free_block q.key) s

/-- `alloc_branch`. -/
def alloc_branch_logged (v : Vol) (offsets : List Nat) (start : Indirect) :
    Reserving × List Indirect × Option Errno :=
  let (block, s) := Reserving.new_block ⟨v, [], []⟩
  let parent := int32 block
  let r := if parent = 0 then (s, [], false)
    else alloc_branch_loop_logged s parent [{ start with key := u32_of_int parent }] offsets.tail
  if r.2.2 then (r.1, r.2.1, none) else (free_keys_logged r.1 r.2.1, r.2.1, some .ENOSPC)

theorem Reserving.new_block_erase (s : Reserving) :
    gas_new_block s.v = (s.new_block.1, (gas_new_block s.v).2.1, s.new_block.2.v) := by
  rw [Reserving.new_block]
  rcases gas_new_block s.v with ⟨block, _ | e, v⟩ <;> rfl

theorem alloc_branch_loop_logged_erase : ∀ (offsets : List Nat) (s : Reserving) (parent : Int)
    (branch : List Indirect), alloc_branch_loop s.v parent branch offsets =
      ((alloc_branch_loop_logged s parent branch offsets).1.v,
        (alloc_branch_loop_logged s parent branch offsets).2) := by
  intro offsets
  induction offsets with
  | nil => exact fun s parent branch => rfl
  | cons o offsets ih =>
    intro s parent branch
    rw [alloc_branch_loop, alloc_branch_loop_logged, s.new_block_erase]
    dsimp only
    split
    · rfl
    · exact ih { s.new_block.2 with v := { s.new_block.2.v with words := _ } } _ _

theorem free_keys_logged_erase (branch : List Indirect) :
    ∀ s : Reserving, (free_keys_logged s branch).v = free_keys s.v branch := by
  induction branch with
  | nil => exact fun s => rfl
  | cons q branch ih => exact fun s => ih (s.free_block q.key)

/-- **Without its log it is `alloc_branch`.** -/
theorem alloc_branch_logged_erase (c : Ctx) (offsets : List Nat) (start : Indirect) :
    alloc_branch c offsets start =
      ({ c with v := (alloc_branch_logged c.v offsets start).1.v },
        (alloc_branch_logged c.v offsets start).2) := by
  have hnew := (⟨c.v, [], []⟩ : Reserving).new_block_erase
  rw [alloc_branch, alloc_branch_logged]
  dsimp only at hnew ⊢
  rw [hnew]
  dsimp only
  split
  · rfl
  · rw [alloc_branch_loop_logged_erase]
    split
    · rfl
    · rw [free_keys_logged_erase]

/-! ## 2. Branches of given blocks

What a branch of certain blocks looks like, depending on where `sb_getblk` looks for a number. -/

/-- The entries of a branch behind the block `b`: the next block `b'` is stored at its offset in the
block that `sb_getblk` finds for the number `b`. -/
def branch_links (getblk : Nat → Nat) : Nat → List Nat → List Nat → List Indirect
  | b, b' :: nb, o :: offsets =>
    ⟨.blk (getblk b) o, b', some (getblk b)⟩ :: branch_links getblk b' nb offsets
  | _, _, _ => []

/-- The branch of the blocks `nb`, the first of them for `start`. -/
def branch_of (getblk : Nat → Nat) (start : Indirect) (nb offsets : List Nat) : List Indirect :=
  match nb with
  | [] => []
  | b :: nb => { start with key := b } :: branch_links getblk b nb offsets.tail

/-- The indirect block of an entry is zeroed, and the number of the entry stored in it. -/
def fill_entry (words : Nat → Nat → Nat) (q : Indirect) : Nat → Nat → Nat :=
  match q.p with
  | .blk bh o => fill_block words bh o q.key
  | _ => words

/-- The contents of the blocks once the indirect blocks of a branch are filled.  The first entry is
filled later, by `splice_branch`. -/
def fill_branch (words : Nat → Nat → Nat) (branch : List Indirect) : Nat → Nat → Nat :=
  branch.tail.foldl fill_entry words

/-- The block that `sb_getblk` finds for a number kept in an `int`. -/
def getblk_int (b : Nat) : Nat := sector_of_int (int32 b)

theorem getblk_int_eq_iff {b : Nat} (h : b < 4294967296) : getblk_int b = b ↔ b < 2147483648 := by
  refine ⟨fun he => ?_, sector_of_int_int32⟩
  by_contra hge
  rw [getblk_int, int32, if_neg (by omega), sector_of_int] at he
  omega

theorem map_key_branch_links (getblk : Nat → Nat) : ∀ (nb offsets : List Nat) (b : Nat),
    nb.length ≤ offsets.length → (branch_links getblk b nb offsets).map Indirect.key = nb := by
  intro nb
  induction nb with
  | nil => exact fun offsets b _ => by simp [branch_links]
  | cons b' nb ih =>
    intro offsets b hle
    obtain ⟨o, offsets, rfl⟩ := List.exists_cons_of_length_pos (Nat.zero_lt_of_lt hle)
    rw [branch_links, List.map_cons, ih offsets b' (Nat.le_of_succ_le_succ hle)]

/-- The keys of a branch are its blocks. -/
theorem map_key_branch_of (getblk : Nat → Nat) (start : Indirect) {nb offsets : List Nat}
    (hle : nb.length ≤ offsets.length) : (branch_of getblk start nb offsets).map Indirect.key = nb := by
  cases nb with
  | nil => rfl
  | cons b nb =>
    rw [branch_of, List.map_cons, map_key_branch_links getblk nb]
    rw [List.length_tail]
    exact Nat.le_sub_one_of_lt hle

/-- The links are where they belong exactly if every block but the last is found by its number. -/
theorem branch_links_eq_iff (getblk : Nat → Nat) : ∀ (nb offsets : List Nat) (b : Nat),
    nb.length ≤ offsets.length →
      (branch_links getblk b nb offsets = branch_links id b nb offsets ↔
        ∀ x ∈ (b :: nb).dropLast, getblk x = x) := by
  intro nb
  induction nb with
  | nil => exact fun offsets b _ => by simp [branch_links]
  | cons b' nb ih =>
    intro offsets b hle
    obtain ⟨o, offsets, rfl⟩ := List.exists_cons_of_length_pos (Nat.zero_lt_of_lt hle)
    rw [branch_links, branch_links, List.cons.injEq, ih offsets b' (Nat.le_of_succ_le_succ hle),
      List.dropLast_cons_cons, List.forall_mem_cons]
    refine and_congr_left fun _ => ?_
    simp

/-- A branch is the intended one exactly if `sb_getblk` finds every block but the last by its
number.  The last one is the data block, which the caller reads later through a full sector
number. -/
theorem branch_of_eq_iff (getblk : Nat → Nat) (start : Indirect) {nb offsets : List Nat}
    (hle : nb.length ≤ offsets.length) :
    branch_of getblk start nb offsets = branch_of id start nb offsets ↔
      ∀ x ∈ nb.dropLast, getblk x = x := by
  cases nb with
  | nil => simp [branch_of]
  | cons b nb =>
    rw [branch_of, branch_of, List.cons.injEq, branch_links_eq_iff getblk nb]
    · exact and_iff_right rfl
    · rw [List.length_tail]
      exact Nat.le_sub_one_of_lt hle

/-! ## 3. What a call leaves

By the queue of free blocks alone. -/

/-- The blocks that a call for `n` blocks gets for its branch.  Block `0` looks like a failure and
ends the call. -/
def branch_blocks (queue : List Nat) (n : Nat) : List Nat :=
  (queue.take n).takeWhile fun b => decide (b ≠ 0)

/-- Block `0`, if `gas_new_block` returns it to a call for `n` blocks. -/
def zero_block (queue : List Nat) (n : Nat) : List Nat := if 0 ∈ queue.take n then [0] else []

section Queue

variable (queue : List Nat) (n : Nat)

@[simp] theorem branch_blocks_nil : branch_blocks [] n = [] := by
  rw [branch_blocks, List.take_nil, List.takeWhile_nil]

@[simp] theorem zero_block_nil : zero_block [] n = [] := by
  rw [zero_block, List.take_nil, if_neg List.not_mem_nil]

@[simp] theorem branch_blocks_zero : branch_blocks (0 :: queue) (n + 1) = [] := by
  rw [branch_blocks, List.take_succ_cons, List.takeWhile_cons_of_neg (by simp)]

@[simp] theorem zero_block_zero : zero_block (0 :: queue) (n + 1) = [0] := by
  rw [zero_block, List.take_succ_cons, if_pos List.mem_cons_self]

theorem branch_blocks_cons {b : Nat} (hb : b ≠ 0) :
    branch_blocks (b :: queue) (n + 1) = b :: branch_blocks queue n := by
  rw [branch_blocks, List.take_succ_cons, List.takeWhile_cons, if_pos (decide_eq_true hb),
    branch_blocks]

theorem zero_block_cons {b : Nat} (hb : b ≠ 0) :
    zero_block (b :: queue) (n + 1) = zero_block queue n := by
  simp only [zero_block, List.take_succ_cons, List.mem_cons, hb.symm, false_or]

theorem branch_blocks_length_le : (branch_blocks queue n).length ≤ n :=
  le_trans (List.takeWhile_prefix _).length_le (List.length_take_le n queue)

end Queue

/-- What the loop of `alloc_branch` leaves, by the queue of the volume it starts from. -/
structure LoopLeaves (s : Reserving) (b : Nat) (branch : List Indirect) (offsets : List Nat)
    (r : Reserving × List Indirect × Bool) : Prop where
  reserved : r.1.reserved = s.reserved ++ branch_blocks s.v.free_order offsets.length ++
    zero_block s.v.free_order offsets.length
  freed : r.1.freed = s.freed
  branch : r.2.1 =
    branch ++ branch_links getblk_int b (branch_blocks s.v.free_order offsets.length) offsets
  words : r.1.v.words =
    (branch_links getblk_int b (branch_blocks s.v.free_order offsets.length) offsets).foldl
      fill_entry s.v.words
  complete : r.2.2 = true ↔ (branch_blocks s.v.free_order offsets.length).length = offsets.length

/-- One block more: the first of the queue, linked into the block before. -/
theorem LoopLeaves.cons {s : Reserving} {v' : Vol} {b x o : Nat} {branch : List Indirect}
    {offsets : List Nat} {r : Reserving × List Indirect × Bool} (hne : x ≠ 0)
    (hq : s.v.free_order = x :: v'.free_order)
    (h : LoopLeaves ⟨{ v' with words := fill_block s.v.words (getblk_int b) o x }, s.reserved ++ [x],
      s.freed⟩ x (branch ++ [⟨.blk (getblk_int b) o, x, some (getblk_int b)⟩]) offsets r) :
    LoopLeaves s b branch (o :: offsets) r := by
  have hblocks := branch_blocks_cons v'.free_order offsets.length hne
  have hzero := zero_block_cons v'.free_order offsets.length hne
  have hrest : ({ v' with words := fill_block s.v.words (getblk_int b) o x } : Vol).free_order =
      v'.free_order := rfl
  rw [← hq] at hblocks hzero
  constructor
  · rw [h.reserved, hrest, List.length_cons, hblocks, hzero, List.append_assoc s.reserved,
      List.singleton_append]
  · exact h.freed
  · rw [h.branch, hrest, List.length_cons, hblocks, branch_links, List.append_assoc,
      List.singleton_append]
  · rw [h.words, hrest, List.length_cons, hblocks, branch_links]
    rfl
  · rw [h.complete, hrest, List.length_cons, hblocks, List.length_cons, Nat.add_right_cancel_iff]

/-- **The loop of `alloc_branch`**, by induction on the offsets that are left.  Each round takes the
first block of the queue; without one, or with block `0`, the loop ends. -/
theorem alloc_branch_loop_logged_leaves : ∀ (offsets : List Nat) (s : Reserving) (b : Nat)
    (branch : List Indirect), s.v.sbi.s_bits_per_block ∣ 4294967296 →
      LoopLeaves s b branch offsets (alloc_branch_loop_logged s (int32 b) branch offsets) := by
  intro offsets
  induction offsets with
  | nil =>
    intro s b branch _
    constructor <;> simp [alloc_branch_loop_logged, branch_blocks, zero_block, branch_links]
  | cons o offsets ih =>
    intro s b branch hbits
    rw [alloc_branch_loop_logged, Reserving.new_block]
    rcases gas_new_block_free_order s.v with ⟨hq, heq⟩ | ⟨x, v', hq, heq, hsbi, hwords⟩
    · rw [heq]
      constructor <;> simp [hq, branch_links, int32]
    · have hx : x < 4294967296 := by
        obtain ⟨i, -, bit, hbit, -, rfl⟩ := mem_free_order (hq ▸ List.mem_cons_self)
        exact map_number_lt hbits hbit
      rw [heq]
      dsimp only
      rcases eq_or_ne x 0 with rfl | hne
      · -- block `0` is reserved, and taken for a failure
        rw [if_pos (by decide)]
        constructor <;> simp [hq, branch_links, hwords]
      · rw [if_neg fun h => hne ((int32_eq_zero_iff hx).mp h), u32_of_int_int32 hx, hwords]
        exact LoopLeaves.cons hne hq (ih _ x _ (hsbi ▸ hbits))

theorem free_keys_logged_leaves (branch : List Indirect) : ∀ s : Reserving,
    (free_keys_logged s branch).reserved = s.reserved ∧
      (free_keys_logged s branch).freed = s.freed ++ branch.map Indirect.key ∧
      (free_keys_logged s branch).v.words = s.v.words := by
  induction branch with
  | nil => exact fun s => ⟨rfl, (List.append_nil _).symm, rfl⟩
  | cons q branch ih =>
    intro s
    obtain ⟨hreserved, hfreed, hwords⟩ := ih (s.free_block q.key)
    refine ⟨hreserved, hfreed.trans ?_, hwords.trans (gas_free_block_words s.v q.key)⟩
    rw [Reserving.free_block, List.map_cons, List.append_assoc, List.singleton_append]

/-- What `alloc_branch` leaves, by the queue of the volume. -/
structure CallLeaves (v : Vol) (offsets : List Nat) (start : Indirect)
    (r : Reserving × List Indirect × Option Errno) : Prop where
  reserved : r.1.reserved = branch_blocks v.free_order offsets.length ++
    zero_block v.free_order offsets.length
  freed : r.1.freed = if r.2.2 = none then [] else branch_blocks v.free_order offsets.length
  branch : r.2.1 = branch_of getblk_int start (branch_blocks v.free_order offsets.length) offsets
  words : r.1.v.words = fill_branch v.words r.2.1
  complete : r.2.2 = none ↔ (branch_blocks v.free_order offsets.length).length = offsets.length

/-- **`alloc_branch`, by the queue**: the first block for `start`, then the loop. -/
theorem alloc_branch_logged_leaves {v : Vol} (hbits : v.sbi.s_bits_per_block ∣ 4294967296)
    {offsets : List Nat} (ho : offsets ≠ []) (start : Indirect) :
    CallLeaves v offsets start (alloc_branch_logged v offsets start) := by
  obtain ⟨o, offsets, rfl⟩ := List.exists_cons_of_ne_nil ho
  rw [alloc_branch_logged, Reserving.new_block]
  rcases gas_new_block_free_order v with ⟨hq, heq⟩ | ⟨x, v', hq, heq, hsbi, hwords⟩
  · rw [heq]
    constructor <;> simp [hq, branch_of, fill_branch, free_keys_logged, int32]
  · have hx : x < 4294967296 := by
      obtain ⟨i, -, bit, hbit, -, rfl⟩ := mem_free_order (hq ▸ List.mem_cons_self)
      exact map_number_lt hbits hbit
    rw [heq]
    dsimp only
    rcases eq_or_ne x 0 with rfl | hne
    · have hzero : int32 0 = 0 := rfl
      simp only [hzero, if_true]
      constructor <;> simp [hq, branch_of, fill_branch, free_keys_logged, hwords]
    · have hnot : int32 x ≠ 0 := fun h => hne ((int32_eq_zero_iff hx).mp h)
      have hloop := alloc_branch_loop_logged_leaves offsets ⟨v', [x], []⟩ x
        [{ start with key := x }] (hsbi ▸ hbits)
      have hblocks := branch_blocks_cons v'.free_order offsets.length hne
      have hzero := zero_block_cons v'.free_order offsets.length hne
      rw [← hq] at hblocks hzero
      simp only [hnot, if_false, u32_of_int_int32 hx, List.tail_cons, List.nil_append]
      generalize alloc_branch_loop_logged ⟨v', [x], []⟩ (int32 x) [{ start with key := x }]
        offsets = r at hloop ⊢
      have hreserved : r.1.reserved = branch_blocks v.free_order (offsets.length + 1) ++
          zero_block v.free_order (offsets.length + 1) := by
        rw [hblocks, hzero]
        exact hloop.reserved
      have hbranch : r.2.1 = branch_of getblk_int start
          (branch_blocks v.free_order (offsets.length + 1)) (o :: offsets) := by
        rw [hblocks]
        exact hloop.branch
      have hfill : r.1.v.words = fill_branch v.words r.2.1 := by
        rw [hloop.words, hloop.branch, ← hwords]
        rfl
      have hcomplete : r.2.2 = true ↔
          (branch_blocks v.free_order (offsets.length + 1)).length = offsets.length + 1 := by
        rw [hblocks, List.length_cons, Nat.add_right_cancel_iff]
        exact hloop.complete
      have hkeys : r.2.1.map Indirect.key = branch_blocks v.free_order (offsets.length + 1) := by
        rw [hbranch]
        exact map_key_branch_of _ _ (branch_blocks_length_le _ _)
      obtain ⟨hsame, hfreed, hkept⟩ := free_keys_logged_leaves r.2.1 r.1
      rw [hloop.freed, hkeys] at hfreed
      cases hr : r.2.2 with
      | true => exact ⟨hreserved, hloop.freed, hbranch, hfill, iff_of_true rfl (hcomplete.mp hr)⟩
      | false =>
        refine ⟨hsame.trans hreserved, hfreed, hbranch, hkept.trans hfill, iff_of_false ?_ ?_⟩
        · exact Option.some_ne_none _
        · rw [List.length_cons, ← hcomplete, hr]
          exact Bool.false_ne_true

/-! ## 4. The blocks used

When the log and the branch agree. -/

/-- **Every block is used as it was reserved.**  The branch links the blocks that `gas_new_block`
returned, in their order; the indirect blocks among them are zeroed and filled, and no others; and when
a block is missing, they are the blocks given back. -/
structure UsesReserved (v : Vol) (offsets : List Nat) (start : Indirect) : Prop where
  branch : (alloc_branch_logged v offsets start).2.1 =
    branch_of id start (alloc_branch_logged v offsets start).1.reserved offsets
  filled : (alloc_branch_logged v offsets start).1.v.words =
    fill_branch v.words (branch_of id start (alloc_branch_logged v offsets start).1.reserved offsets)
  freed : (alloc_branch_logged v offsets start).1.freed =
    if (alloc_branch_logged v offsets start).2.2 = none then []
    else (alloc_branch_logged v offsets start).1.reserved

/-- No number that a call for `n` blocks would get is `0`, and none but the last has the sign bit of an
`int`. -/
def SignFree (v : Vol) (n : Nat) : Prop :=
  0 ∉ v.free_order.take n ∧ ∀ b ∈ (v.free_order.take n).dropLast, b < 2147483648

/-- Without block `0`, all blocks the call gets go into its branch. -/
theorem branch_blocks_eq_iff {queue : List Nat} {n : Nat} :
    zero_block queue n = [] ↔ branch_blocks queue n = queue.take n := by
  rw [branch_blocks, List.takeWhile_eq_self_iff, zero_block]
  constructor
  · intro h b hb
    rw [decide_eq_true_eq]
    rintro rfl
    rw [if_pos hb] at h
    exact List.cons_ne_nil _ _ h
  · intro h
    rw [if_neg fun hb => absurd (h 0 hb) (by simp)]

/-- **The blocks are used as reserved exactly if no sign bit is met.** The blocks in question are
the first of the queue, so this is a condition on the map and the hint. -/
theorem usesReserved_iff {v : Vol} (hbits : v.sbi.s_bits_per_block ∣ 4294967296)
    {offsets : List Nat} (ho : offsets ≠ []) (start : Indirect) :
    UsesReserved v offsets start ↔ SignFree v offsets.length := by
  have hc := alloc_branch_logged_leaves hbits ho start
  have hlen := branch_blocks_length_le v.free_order offsets.length
  have hnumber : ∀ b ∈ (v.free_order.take offsets.length).dropLast,
      getblk_int b = b ↔ b < 2147483648 := by
    intro b hb
    obtain ⟨i, -, bit, hbit, -, rfl⟩ :=
      mem_free_order (List.mem_of_mem_take (List.mem_of_mem_dropLast hb))
    exact getblk_int_eq_iff (map_number_lt hbits hbit)
  -- without block `0`, the blocks of the branch, the blocks reserved and the head of the queue agree
  have hagree : zero_block v.free_order offsets.length = [] →
      branch_blocks v.free_order offsets.length = v.free_order.take offsets.length ∧
        (alloc_branch_logged v offsets start).1.reserved = v.free_order.take offsets.length := by
    intro hzero
    have hall := branch_blocks_eq_iff.mp hzero
    exact ⟨hall, by rw [hc.reserved, hzero, List.append_nil, hall]⟩
  constructor
  · intro h
    have hzero : zero_block v.free_order offsets.length = [] := by
      have hfreed := h.freed
      rw [hc.freed, hc.reserved] at hfreed
      by_cases hr : (alloc_branch_logged v offsets start).2.2 = none
      · refine branch_blocks_eq_iff.mpr ((List.takeWhile_prefix _).eq_of_length_le ?_)
        rw [← branch_blocks, hc.complete.mp hr]
        exact List.length_take_le _ _
      · rw [if_neg hr, if_neg hr] at hfreed
        exact List.self_eq_append_right.mp hfreed
    obtain ⟨hall, hreserved⟩ := hagree hzero
    refine ⟨fun hmem => ?_, fun b hb => (hnumber b hb).mp ?_⟩
    · rw [zero_block, if_pos hmem] at hzero
      exact List.cons_ne_nil _ _ hzero
    · have hbranch := h.branch
      rw [hc.branch, hreserved, ← hall, branch_of_eq_iff _ _ hlen, hall] at hbranch
      exact hbranch b hb
  · rintro ⟨hmem, hlow⟩
    obtain ⟨hall, hreserved⟩ := hagree (by rw [zero_block, if_neg hmem])
    have hbranch : branch_of getblk_int start (branch_blocks v.free_order offsets.length) offsets =
        branch_of id start (alloc_branch_logged v offsets start).1.reserved offsets := by
      rw [hreserved, ← hall, branch_of_eq_iff _ _ hlen, hall]
      exact fun b hb => (hnumber b hb).mpr (hlow b hb)
    exact ⟨hc.branch.trans hbranch, by rw [hc.words, hc.branch, hbranch], by
      rw [hc.freed, hreserved, hall]⟩

/-- A map of up to `2 ^ 31` bits, with the bit of block `0` set, has no other numbers. -/
theorem signFree_of_le {v : Vol}
    (hsize : v.sbi.s_bam_blocks * v.sbi.s_bits_per_block ≤ 2147483648) (hzero : v.bam 0 0 = true)
    (n : Nat) : SignFree v n := by
  have hnumber : ∀ b ∈ v.free_order, b ≠ 0 ∧ b < 2147483648 := by
    intro b hb
    obtain ⟨i, hi, bit, hbit, hclear, rfl⟩ := mem_free_order hb
    have hend : (i + 1) * v.sbi.s_bits_per_block ≤ 2147483648 :=
      Nat.le_trans (Nat.mul_le_mul_right _ hi) hsize
    rw [Nat.add_mul, Nat.one_mul] at hend
    rw [map_number, u32_of_lt (by omega)]
    refine ⟨fun he => ?_, by omega⟩
    obtain ⟨rfl, hprod⟩ := Nat.add_eq_zero_iff.mp he
    obtain rfl : i = 0 := (Nat.mul_eq_zero.mp hprod).resolve_right (Nat.ne_of_gt hbit)
    rw [hzero] at hclear
    exact Bool.false_ne_true hclear.symm
  refine ⟨fun hmem => (hnumber 0 (List.mem_of_mem_take hmem)).1 rfl, fun b hb => ?_⟩
  exact (hnumber b (List.mem_of_mem_take (List.mem_of_mem_dropLast hb))).2

/-- **Volumes of up to `2 ^ 31` blocks** use every block as it was reserved. -/
theorem usesReserved_of_le {v : Vol} (hbits : v.sbi.s_bits_per_block ∣ 4294967296)
    (hsize : v.sbi.s_bam_blocks * v.sbi.s_bits_per_block ≤ 2147483648) (hzero : v.bam 0 0 = true)
    {offsets : List Nat} (ho : offsets ≠ []) (start : Indirect) : UsesReserved v offsets start :=
  (usesReserved_iff hbits ho start).mpr (signFree_of_le hsize hzero offsets.length)

/-- **New branches use the blocks they reserved, exactly while no sign bit is met.**  A block size is
a power of two, and so is the number of bits in a map block. -/
theorem alloc_branch_uses_reserved_iff {v : Vol} (hbits : v.sbi.s_bits_per_block ∣ 4294967296)
    {offsets : List Nat} (ho : offsets ≠ []) (start : Indirect) :
    (∀ inode nr, alloc_branch ⟨v, inode, nr⟩ offsets start =
      (⟨(alloc_branch_logged v offsets start).1.v, inode, nr⟩,
        (alloc_branch_logged v offsets start).2)) ∧
      (UsesReserved v offsets start ↔ SignFree v offsets.length) :=
  ⟨fun inode nr => alloc_branch_logged_erase ⟨v, inode, nr⟩ offsets start,
    usesReserved_iff hbits ho start⟩

/-! ## 5. Two volumes

The same path allocated below and above `2 ^ 31`. -/

/-- A volume of 65537 map blocks.  The hint is at the block `hint`, which has two free bits, and no
other has one. -/
def two_free_vol (hint : Fin 65537) : Vol where
  sbi := gas_super_block_fill ⟨MAGIC_NUMBER, 4096, 65537, 1, 1, 2147516416, 64⟩
  s_blocksize_bits := 12
  s_bam_last := hint
  s_iam_last := ⟨0, by decide⟩
  bam := fun i bit => decide (i ≠ hint ∨ 2 ≤ bit)
  iam := fun _ _ => true
  words := fun _ _ => 0
  env := ⟨fun _ => true, fun _ => true, fun _ _ => 0, fun _ => true, fun _ => 0, 0, 0⟩
  tick := 0

theorem free_order_take_two {v : Vol}
    (hzero : find_first_zero_bit (v.bam v.s_bam_last) v.sbi.s_bits_per_block = 0)
    (hone : find_first_zero_bit (write_bit v.bam v.s_bam_last 0 true v.s_bam_last)
      v.sbi.s_bits_per_block = 1) (hbits : 1 < v.sbi.s_bits_per_block) :
    v.free_order.take 2 = [map_number v v.s_bam_last 0, map_number v v.s_bam_last 1] := by
  rw [free_order_at_hint hzero (Nat.zero_lt_of_lt hbits), List.take_succ_cons,
    free_order_at_hint (v := { v with bam := write_bit v.bam v.s_bam_last 0 true }) hone hbits]
  rfl

/-- The queue begins with the two. -/
theorem two_free_order (hint : Fin 65537) : (two_free_vol hint).free_order.take 2 =
    [map_number (two_free_vol hint) hint 0, map_number (two_free_vol hint) hint 1] := by
  have hzero : find_first_zero_bit ((two_free_vol hint).bam hint) 32768 = 0 :=
    find_first_zero_bit_eq (by omega) (by simp [two_free_vol]) fun j hj => absurd hj (Nat.not_lt_zero j)
  have hone : find_first_zero_bit (write_bit (two_free_vol hint).bam hint 0 true hint) 32768 = 1 := by
    refine find_first_zero_bit_eq (by omega) (by simp [two_free_vol, write_bit]) fun j hj => ?_
    obtain rfl := Nat.lt_one_iff.mp hj
    exact write_bit_same _ _ _ _
  have hbits : (two_free_vol hint).sbi.s_bits_per_block = 32768 := rfl
  exact free_order_take_two (v := two_free_vol hint) hzero hone (by rw [hbits]; decide)

/-- The path of a first indirect block. -/
def first_indirect : Indirect := ⟨.idata 6, 0, none⟩

/-- **Below `2 ^ 31`**: blocks 98304 and 98305 are used as they were reserved. -/
theorem low_blocks_used : UsesReserved (two_free_vol 3) [6, 0] first_indirect := by
  refine (alloc_branch_uses_reserved_iff (by decide) (by decide) first_indirect).2.mpr ?_
  rw [SignFree, List.length_cons, List.length_cons, List.length_nil, two_free_order]
  decide

/-- **From `2 ^ 31` on**: for block `2 ^ 31` the sector `2 ^ 64 - 2 ^ 31` is zeroed and filled. -/
theorem high_block_not_used :
    (alloc_branch_logged (two_free_vol 65536) [6, 0] first_indirect).1.reserved =
        [2147483648, 2147483649] ∧
      (alloc_branch_logged (two_free_vol 65536) [6, 0] first_indirect).2.1.map Indirect.bh =
        [none, some 18446744071562067968] ∧
      ¬UsesReserved (two_free_vol 65536) [6, 0] first_indirect := by
  have hc : CallLeaves (two_free_vol 65536) [6, 0] first_indirect
      (alloc_branch_logged (two_free_vol 65536) [6, 0] first_indirect) :=
    alloc_branch_logged_leaves (by decide) (by decide) first_indirect
  have hqueue : (two_free_vol 65536).free_order.take 2 = [2147483648, 2147483649] :=
    (two_free_order 65536).trans (by decide)
  have hblocks : branch_blocks (two_free_vol 65536).free_order 2 = [2147483648, 2147483649] := by
    rw [branch_blocks, hqueue]
    decide
  have hzero : zero_block (two_free_vol 65536).free_order 2 = [] := by
    rw [zero_block, hqueue]
    decide
  refine ⟨?_, ?_, fun h => ?_⟩
  · rw [hc.reserved, List.length_cons, List.length_cons, List.length_nil, hblocks, hzero]
    rfl
  · rw [hc.branch, List.length_cons, List.length_cons, List.length_nil, hblocks]
    decide
  · have hbranch := h.branch
    rw [hc.branch, hc.reserved, List.length_cons, List.length_cons, List.length_nil, hblocks, hzero]
      at hbranch
    revert hbranch
    decide

end GasFs
