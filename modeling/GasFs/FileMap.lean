/-
# A file as a finite map

What a file maps is a partial function from logical to physical blocks, `Fs.mapped`.  A lookup
reads this function (`gas_get_block_mapped`, `gas_get_block_lookup_hole`).  A call with `create`
extends it at one argument, or fails because the volume has fewer free blocks than the path has
null slots (`gas_get_block_hole`).

The count is exact: `alloc_branch` succeeds if and only if there is a free block for each offset
(`alloc_branch_enough`), and the blocks it takes number as many as `Ctx.missing` counts null slots
(`missing_eq`).  The two main results are `gas_get_block_is_map` and `gas_get_block_full_iff`.

The hypotheses are those of a mounted file system on which reads succeed: the inode is in core and
has blocks, the books are sound, and the logical block is one of the volume.  What happens when a
read fails is said in `Itree/Lookup.lean` and `Itree/Fault.lean`.

A call that runs out of space is the interesting failure.  It may have taken one or two blocks
before it finds no third one; these are given back, and of all this nothing is left but the number
of requests and words of blocks that are free (`gas_get_block_full_iff`).
-/
import GasFs.Accounts
import Mathlib.Data.Finset.Card

namespace GasFs

open PtrTree

/-! ## 1. Free blocks

The queue of `FreeOrder.lean` has as many members as there are free data blocks, so an allocation of
`n` blocks succeeds exactly when `n` are free. -/

/-- The free data blocks. -/
def Vol.free (v : Vol) : Finset Nat :=
  (Finset.range v.sbi.s_nblocks).filter fun b => v.InZone b ∧ v.inUse b = false

theorem mem_free {v : Vol} {b : Nat} : b ∈ v.free ↔ v.InZone b ∧ v.inUse b = false := by
  rw [Vol.free, Finset.mem_filter, Finset.mem_range]
  exact and_iff_right_of_imp fun h => h.1.2

/-- A full map has no free block. -/
theorem Vol.BamFull.free_eq {v : Vol} (h : v.BamFull) (hg : MapGeometry v) : v.free = ∅ := by
  refine Finset.eq_empty_of_forall_notMem fun b hb => ?_
  obtain ⟨hz, hfree⟩ := mem_free.mp hb
  have hblock : b / v.sbi.s_bits_per_block < v.sbi.s_bam_blocks :=
    (Nat.div_lt_iff_lt_mul hg.bits_pos).mpr (Nat.lt_of_lt_of_le hz.2 hg.covers)
  rw [Vol.inUse, h _ hblock _ (Nat.mod_lt b hg.bits_pos)] at hfree
  exact Bool.false_ne_true hfree.symm

/-- A block taken is one free block less. -/
theorem Taken.card {v v' : Vol} {b : Nat} (h : Taken v b v') : v'.free.card + 1 = v.free.card := by
  have hmem : b ∈ v.free := mem_free.mpr ⟨h.zone, h.free⟩
  rw [← Finset.card_erase_add_one hmem]
  congr 2
  ext y
  rw [Finset.mem_erase, mem_free, mem_free, h.marks, h.step.inZone]
  rcases eq_or_ne y b with rfl | hne
  · simp
  · rw [if_neg hne]
    exact (and_iff_right hne).symm

/-- **The loop of `alloc_branch` finds all its blocks exactly when there are enough.** -/
theorem alloc_branch_loop_enough (offsets : List Nat) : ∀ {v : Vol} (parent : Int)
    (branch : List Indirect), MapGeometry v → v.MapPadded →
      ((alloc_branch_loop v parent branch offsets).2.2 = true ↔ offsets.length ≤ v.free.card) := by
  induction offsets with
  | nil => intro v parent branch _ _; simp [alloc_branch_loop]
  | cons o offsets ih =>
    intro v parent branch hg hp
    rw [alloc_branch_loop, List.length_cons]
    rcases gas_new_block_taken hg hp with ⟨block, v', heq, ht⟩ | ⟨heq, hfull, -⟩
    · -- the words that are filled in do not count
      have hcard := ht.card
      rw [heq]
      dsimp only
      rw [if_neg (hg.zone_int ht.zone).1, ← hcard, Nat.succ_le_succ_iff]
      exact ih _ _ { ht.step.map hg with } (ht.padded hp)
    · rw [heq, hfull.free_eq hg, Finset.card_empty]
      dsimp only
      rw [if_pos (by rfl)]
      exact iff_of_false (by simp) (Nat.not_succ_le_zero _)

/-- **`alloc_branch` succeeds exactly when there is a free block for each offset.** -/
theorem alloc_branch_enough {c : Ctx} (hg : MapGeometry c.v) (hp : c.v.MapPadded)
    {offsets : List Nat} (ho : offsets ≠ []) (start : Indirect) :
    (alloc_branch c offsets start).2.2 = none ↔ offsets.length ≤ c.v.free.card := by
  obtain ⟨o, offsets, rfl⟩ := List.exists_cons_of_ne_nil ho
  rw [alloc_branch, List.length_cons]
  rcases gas_new_block_taken hg hp with ⟨block, v', heq, ht⟩ | ⟨heq, hfull, -⟩
  · have hcard := ht.card
    have hloop := alloc_branch_loop_enough offsets (int32 block)
      [{ start with key := u32_of_int (int32 block) }] (ht.step.map hg) (ht.padded hp)
    rw [heq]
    dsimp only
    rw [if_neg (hg.zone_int ht.zone).1, List.tail_cons]
    split
    · rename_i hr
      exact iff_of_true rfl (by have := hloop.mp hr; omega)
    · rename_i hr
      exact iff_of_false (by simp) fun hle => hr (hloop.mpr (by omega))
  · rw [heq, hfull.free_eq hg, Finset.card_empty]
    exact iff_of_false (by simp [int32]) (Nat.not_succ_le_zero _)

/-! ## 2. Null slots on a path

How many blocks a call needs. -/

/-- The number of null slots on a path: the blocks a call with `create` has to take. -/
def Ctx.missing (c : Ctx) (o : List Nat) : Nat :=
  (List.range o.length).countP fun l => c.val (o.take (l + 1)) == 0

theorem countP_range_from (m : Nat) : ∀ n : Nat,
    (List.range n).countP (fun l => decide (m ≤ l + 1)) = n + 1 - max m 1
  | 0 => by simp
  | n + 1 => by
    rw [List.range_succ, List.countP_append, countP_range_from m n]
    by_cases h : m ≤ n + 1
    · simp [h]
      omega
    · simp [h]
      omega

/-- A path with a pointer in its last slot misses nothing. -/
theorem missing_of_mapped {c : Ctx} {o : List Nat} (h : c.val o ≠ 0) : c.missing o = 0 := by
  refine List.countP_eq_zero.mpr fun l hl => ?_
  have hlt := List.mem_range.mp hl
  rw [beq_iff_eq]
  intro hz
  refine h (val_null_below (List.ne_nil_of_length_pos ?_) hz ( List.take_prefix _ _))
  rw [List.length_take]
  omega

/-- From the first null slot on, all slots of the path are null. -/
theorem missing_eq {c : Ctx} {o : List Nat} {m : Nat} {p : Cell} (hm : 1 ≤ m) (hmo : m ≤ o.length)
    (hz : c.val (o.take m) = 0) (hp : IsCell c (o.take m) p) : c.missing o + m = o.length + 1 := by
  have hnull : ∀ l ∈ List.range o.length,
      ((c.val (o.take (l + 1)) == 0) = true ↔ decide (m ≤ l + 1) = true) := by
    intro l hl
    have hlt := List.mem_range.mp hl
    rw [beq_iff_eq, decide_eq_true_iff]
    constructor
    · intro hl0
      by_contra hlm
      -- the slot one level up from the hole is set, and so are all above it
      have hup : c.val (o.take (m - 1)) ≠ 0 := by
        have hlen : (o.take m).length = m := by rw [List.length_take]; omega
        cases p with
        | nr => exact absurd hp not_isCell_nr
        | idata i =>
          have h1 := congrArg List.length (isCell_idata_iff.mp hp)
          rw [hlen, List.length_singleton] at h1
          omega
        | blk b j =>
          obtain ⟨s, hs, -, hv, hne⟩ := isCell_blk_iff.mp hp
          have h1 := congrArg List.length hs
          rw [hlen, List.length_append, List.length_singleton] at h1
          have hlens : s.length = m - 1 := by omega
          have h2 := congrArg (List.take (m - 1)) hs
          rw [List.take_take, min_eq_left (by omega), ← hlens, List.take_left] at h2
          rw [← hlens, h2, hv]
          exact hne
      refine hup (val_null_below (List.ne_nil_of_length_pos ?_) hl0
        (List.take_prefix_take_left (by omega)))
      rw [List.length_take]
      omega
    · intro hle
      refine val_null_below (List.ne_nil_of_length_pos ?_) hz (List.take_prefix_take_left hle)
      rw [List.length_take]
      omega
  rw [Ctx.missing, List.countP_congr hnull, countP_range_from]
  omega

/-! ## 3. `gas_get_block`

On a mapped block, on a hole without `create`, and on a hole with it. -/

section
variable {c : Ctx} {block : Nat}

theorem block_path_isLeaf (hc : TreeOk c) (hlt : block < c.v.sbi.s_nblocks) :
    IsLeaf (block_to_path c.v block) :=
  block_to_path_isLeaf hc.geometry fun h =>
    absurd ((block_to_path_eq_nil_iff hc.geometry.toGeometry).mp h) (by omega)

/-- **A mapped block is found**, with or without `create`. -/
theorem gas_get_block_mapped (hio : ∀ n, c.v.env.bread n = true)
    (hne : c.val (block_to_path c.v block) ≠ 0) (create : Bool) :
    ∃ c', Ticked c c' ∧ gas_get_block c block create =
      ⟨c', none, some (c.val (block_to_path c.v block)), false⟩ := by
  unfold gas_get_block
  generalize block_to_path c.v block = o at hne
  cases o with
  | nil => exact absurd rfl hne
  | cons i r =>
    have hB := get_branch_spec c (o := i :: r) (by simp)
    rcases hB.outcome with ⟨hn, -, hl, -⟩ | ⟨-, -, hz⟩ | ⟨-, -, -, -, n, hn⟩
    · have hlast := hB.last
      rw [hl, List.take_length] at hlast
      refine ⟨_, hB.ticked, ?_⟩
      simp only [gas_get_block_loop, hn, if_true, Option.getD_some, hlast.2]
    · refine absurd (val_null_below (List.ne_nil_of_length_pos ?_) hz ( List.take_prefix _ _)) hne
      have hpos := List.length_pos_of_ne_nil hB.pos
      have hle := hB.le
      rw [List.length_take]
      omega
    · rw [hio n] at hn
      exact absurd hn (by simp)

/-- **A lookup of a hole** maps nothing and reports no error. -/
theorem gas_get_block_lookup_hole (hc : TreeOk c) (hlt : block < c.v.sbi.s_nblocks)
    (hio : ∀ n, c.v.env.bread n = true) (hz : c.val (block_to_path c.v block) = 0) :
    ∃ c', Ticked c c' ∧ gas_get_block c block false = ⟨c', none, none, false⟩ := by
  have hne := (block_path_isLeaf hc hlt).1.ne_nil
  unfold gas_get_block
  generalize block_to_path c.v block = o at hne hz
  cases o with
  | nil => exact absurd rfl hne
  | cons i r =>
    have hB := get_branch_spec c (o := i :: r) (by simp)
    rcases hB.outcome with ⟨-, -, -, hv⟩ | ⟨hn, he, -⟩ | ⟨-, -, -, -, n, hn⟩
    · exact absurd hz hv
    · refine ⟨_, hB.ticked, ?_⟩
      simp only [gas_get_block_loop, hn, he, Bool.false_eq_true, if_false, true_or, if_true,
        Option.getD_some]
    · rw [hio n] at hn
      exact absurd hn (by simp)

/-- What a call with `create` does to a hole: it fails for want of blocks, or it grafts the missing
part of the path, made of the first blocks of the queue.  The two cases exclude each other by the
number of free blocks. -/
inductive Filled (c : Ctx) (o : List Nat) : GetBlock → Prop
  | full (c' : Ctx) (hs : Same c c') (hlt : c.v.free.card < c.missing o) :
      Filled c o ⟨c', some .ENOSPC, none, false⟩
  | grafted (c' : Ctx) (m : Nat) (nb : List Nat) (hg : Graft o m nb c c')
      (hlen : nb.length = c.missing o) (hle : c.missing o ≤ c.v.free.card)
      (hq : c.v.free_order = nb ++ c'.v.free_order) :
      Filled c o ⟨c', none, some (c'.val o), true⟩

/-- A path that is read to its hole: one round of the loop fills it, if the blocks that become
indirect blocks may. -/
theorem gas_get_block_loop_hole (hc : TreeSound c) {o : List Nat} (ho : IsLeaf o)
    (hread : (get_branch c o).err = none) (hz : c.val o = 0)
    (hlow : LowFirst c.v.free_order (c.missing o - 1)) :
    ∃ r, gas_get_block_loop c o true 1 = some r ∧ Filled c o r := by
  have hB := get_branch_spec c ho.1.ne_nil
  simp only [gas_get_block_loop]
  generalize get_branch c o = b at hB hread ⊢
  rcases hB.outcome with ⟨-, -, -, hv⟩ | ⟨hn, he, hzm⟩ | ⟨-, he, -⟩
  · exact absurd hz hv
  · have hm1 : 1 ≤ b.chain.length := List.length_pos_of_ne_nil hB.pos
    have hle := hB.le
    have hcr := hB.ticked.sound hc
    have hmiss := missing_eq hm1 hle hzm hB.last.1
    have hdrop : (o.drop (b.chain.length - 1)).length = c.missing o := by
      rw [List.length_drop]; omega
    have hne : o.drop (b.chain.length - 1) ≠ [] := List.ne_nil_of_length_pos (by omega)
    have hfree : b.c.v.free = c.v.free := by
      obtain ⟨_, ht⟩ := hB.ticked
      rw [ht]
      rfl
    have henough := alloc_branch_enough hcr.geometry hcr.padded hne (b.chain.getLastD default)
    rw [hdrop, hfree] at henough
    simp only [hn, he, Bool.false_eq_true, if_false, Bool.true_eq_false, reduceCtorEq, false_or]
    rw [← hdrop, ← hB.ticked.free_order] at hlow
    rcases alloc_branch_spec hcr.geometry hcr.padded hne hlow (b.chain.getLastD default) with
      ⟨c1, branch, nb, b0, heq, hgr, hqueue, hc1, rfl, hhead⟩ | ⟨c1, branch, heq, hc1, h1, h2, h3⟩
    · obtain ⟨c2, hspl, hg, hv, hsame⟩ := splice_spec hc ho hB hzm hgr hc1 hhead
      rw [hB.ticked.free_order, ← hsame] at hqueue
      rw [heq] at henough ⊢
      simp only [hspl]
      have hlen := hg.length
      refine ⟨_, rfl, ?_⟩
      rw [← hv]
      exact .grafted c2 _ _ hg (by omega) (henough.mp rfl) hqueue
    · rw [heq] at henough ⊢
      have hfew := mt henough.mpr (by simp)
      exact ⟨_, rfl, .full c1 (hB.ticked.same.trans ⟨h1, by rw [hc1], h2, h3⟩) (by omega)⟩
  · rw [hread] at he
    simp at he

/-- A path is read to its end or its hole unless a read fails. -/
theorem get_branch_err (hio : ∀ n, c.v.env.bread n = true) {o : List Nat} (ho : o ≠ []) :
    (get_branch c o).err = none := by
  rcases (get_branch_spec c ho).outcome with ⟨-, he, -⟩ | ⟨-, he, -⟩ | ⟨-, -, -, -, n, hn⟩
  · exact he
  · exact he
  · rw [hio n] at hn
    exact absurd hn (by simp)

/-- **A call with `create` on a hole** grafts the missing part of the path, or there are fewer free
blocks than null slots on it. -/
theorem gas_get_block_fill (hc : TreeSound c) (ho : IsLeaf (block_to_path c.v block))
    (hio : ∀ n, c.v.env.bread n = true) (hz : c.val (block_to_path c.v block) = 0)
    (hlow : LowFirst c.v.free_order (c.missing (block_to_path c.v block) - 1)) :
    Filled c (block_to_path c.v block) (gas_get_block c block true) := by
  unfold gas_get_block
  generalize block_to_path c.v block = o at ho hz hlow
  cases o with
  | nil => exact absurd rfl ho.1.ne_nil
  | cons i r =>
    obtain ⟨g, hg, hf⟩ := gas_get_block_loop_hole hc ho (get_branch_err hio ho.1.ne_nil) hz hlow
    simp only [hg, Option.getD_some]
    exact hf

/-- On a volume of `mkfs.gas` all blocks may. -/
theorem gas_get_block_hole (hc : TreeOk c) (hlt : block < c.v.sbi.s_nblocks)
    (hio : ∀ n, c.v.env.bread n = true) (hz : c.val (block_to_path c.v block) = 0) :
    Filled c (block_to_path c.v block) (gas_get_block c block true) :=
  gas_get_block_fill hc.sound (block_path_isLeaf hc hlt) hio hz (hc.geometry.lowFirst hc.padded _)

end

/-! ## 4. The finite map

The same for an inode of a file system. -/

/-- The physical block a logical block of an inode is mapped to, if it is mapped. -/
def Fs.mapped {K : Type} (d : Fs K) (k : K) (block : Nat) : Option Nat :=
  let p := d.slot k (block_to_path d.vol block)
  if p = 0 then none else some p

/-- The blocks a call with `create` took for a hole, the data block last: each of the others is an
indirect block that holds the next one and is otherwise empty. -/
structure NewBlocks (v v' : Vol) (nb : List Nat) : Prop where
  nodup : nb.Nodup
  fresh : ∀ b ∈ nb, v.InZone b ∧ v.inUse b = false
  marks : ∀ b, v'.inUse b = true ↔ b ∈ nb ∨ v.inUse b = true
  link : ∀ l b b', nb[l]? = some b → nb[l + 1]? = some b' →
    ∃ x < 1024, ∀ j < 1024, v'.words b j = if j = x then b' else 0

section
variable {c c' : Ctx} {o : List Nat} {m : Nat} {nb : List Nat}

/-- The slot at a level below the hole holds the new block of that level. -/
theorem Graft.val_take (h : Graft o m nb c c') (ho : IsLeaf o) {l : Nat} (hl : l < nb.length) :
    c'.val (o.take (m + l)) = nb.getD l 0 := by
  have hlen := h.length
  have hm := h.pos
  have hlt : (o.take (m + l)).length = m + l := by rw [List.length_take]; omega
  rw [h.val _ (isPath_take ho.1 (by omega) (by omega)),
    if_pos (And.intro ( List.take_prefix _ _) (by omega)), hlt, Nat.add_sub_cancel_left]

/-- The data slot is set. -/
theorem Graft.val_path_ne_zero (h : Graft o m nb c c') (hc : TreeSound c) (ho : shape.IsPath o) :
    c'.val o ≠ 0 := by
  rcases h.val_cases ho with ⟨-, hnot⟩ | ⟨-, -, -, hget⟩
  · exact absurd ⟨List.prefix_rfl, h.le⟩ hnot
  · have hz := (h.fresh _ (List.mem_of_getElem? hget)).1.1
    have hpos := hc.geometry.data_pos
    omega

theorem Graft.newBlocks (h : Graft o m nb c c') (hc : TreeOk c) (ho : IsLeaf o) :
    NewBlocks c.v c'.v nb where
  nodup := h.nodup
  fresh := h.fresh
  marks := h.marks
  link l b b' hl hl' := by
    have hlen := h.length
    have hm := h.pos
    have hlt := (List.getElem?_eq_some_iff.mp hl').1
    have hb : c'.val (o.take (m + l)) = b := by
      rw [h.val_take ho (by omega), List.getD_eq_getElem?_getD, hl]
      rfl
    have hb0 : b ≠ 0 := by
      have h1 := (h.fresh b (List.mem_of_getElem? hl)).1.1
      have h2 := hc.geometry.data_pos
      omega
    have hp : shape.IsPath (o.take (m + l)) := isPath_take ho.1 (by omega) (by omega)
    have hlt2 : (o.take (m + l)).length = m + l := by rw [List.length_take]; omega
    have hx : o[m + l]? = some o[m + l] := List.getElem?_eq_getElem (by omega)
    have hstep := take_append_getElem hx
    have hpath : ∀ j < 1024, shape.IsPath (o.take (m + l) ++ [j]) := fun j hj => by
      refine (isPath_append hp).mpr ⟨?_, fun k hk => by rw [List.mem_singleton.mp hk]; exact hj⟩
      have hr := rank_take ho (l := m + l) (by omega) (by omega)
      rw [hr, List.length_singleton]
      omega
    refine ⟨o[m + l], ?_, fun j hj => ?_⟩
    · have h1 := isPath_take ho.1 (l := m + l + 1) (by omega) (by omega)
      rw [hstep, isPath_append hp] at h1
      exact h1.2 _ (by simp)
    · -- an entry of the block is the slot one level down
      have hne : o.take (m + l) ≠ [] := List.ne_nil_of_length_pos (by omega)
      have hword : c'.val (o.take (m + l) ++ [j]) = c'.v.words b j := by
        have hv : c'.val (o.take (m + l) ++ [j]) =
            if c'.val (o.take (m + l)) = 0 then 0 else c'.v.words (c'.val (o.take (m + l))) j :=
          val_concat hne j
        rw [hv, hb, if_neg hb0]
      rw [← hword]
      by_cases hj' : j = o[m + l]
      · rw [if_pos hj', hj', ← hstep, Nat.add_assoc, h.val_take ho hlt,
          List.getD_eq_getElem?_getD, hl']
        rfl
      · rw [if_neg hj', h.val _ (hpath j hj), if_neg]
        · exact val_null_below (isPath_take ho.1 h.pos h.le).ne_nil h.hole
            ((List.take_prefix_take_left (by omega)).trans (List.prefix_append _ _))
        · rintro ⟨hpre, -⟩
          rw [concat_prefix_iff (List.take_prefix _ _), hlt2, hx, Option.some.injEq] at hpre
          exact hj' hpre.symm

end

variable {K : Type} [DecidableEq K] {d : Fs K} {k : K} {i : Inode} {block : Nat}

/-- **Block mapping is a finite map.**  A lookup changes nothing but the request counter and maps
the buffer exactly when the block is mapped.  A call with `create` that succeeds does the same on a
mapped block; on a hole it takes as many free blocks as the path has null slots, extends the map of
this inode at this block by the last of them, and leaves the maps of all inodes alone elsewhere. -/
theorem gas_get_block_is_map (h : d.Sound) (hk : d.inodes k = some i)
    (hb : has_blocks i.i_mode = true) (hio : ∀ n, d.vol.env.bread n = true)
    (hlt : block < d.vol.sbi.s_nblocks) :
    (∃ c', Ticked ⟨d.vol, i, 0⟩ c' ∧ gas_get_block ⟨d.vol, i, 0⟩ block false =
        ⟨c', none, d.mapped k block, false⟩) ∧
      (∀ b, d.mapped k block = some b → ∃ c', Ticked ⟨d.vol, i, 0⟩ c' ∧
        gas_get_block ⟨d.vol, i, 0⟩ block true = ⟨c', none, some b, false⟩) ∧
      (d.mapped k block = none → (gas_get_block ⟨d.vol, i, 0⟩ block true).err = none →
        ∃ c' nb b, gas_get_block ⟨d.vol, i, 0⟩ block true = ⟨c', none, some b, true⟩ ∧
          NewBlocks d.vol c'.v nb ∧ nb.getLast? = some b ∧
          nb.length = Ctx.missing ⟨d.vol, i, 0⟩ (block_to_path d.vol block) ∧
          (∀ k' block', block' < d.vol.sbi.s_nblocks → (d.set k c').mapped k' block' =
            if k' = k ∧ block' = block then some b else d.mapped k' block')) := by
  have hc := h.treeOk hk hb
  have hslot := d.slot_of_blocks hk hb (block_to_path d.vol block)
  have hleaf := block_path_isLeaf hc hlt
  refine ⟨?_, fun b hm => ?_, fun hm herr => ?_⟩
  · by_cases hz : Ctx.val ⟨d.vol, i, 0⟩ (block_to_path d.vol block) = 0
    · rw [Fs.mapped, hslot, if_pos hz]
      exact gas_get_block_lookup_hole hc hlt hio hz
    · rw [Fs.mapped, hslot, if_neg hz]
      exact gas_get_block_mapped hio hz false
  · rw [Fs.mapped, hslot] at hm
    by_cases hz : Ctx.val ⟨d.vol, i, 0⟩ (block_to_path d.vol block) = 0
    · rw [if_pos hz] at hm
      exact absurd hm (by simp)
    · rw [if_neg hz] at hm
      rw [← Option.some.inj hm]
      exact gas_get_block_mapped hio hz true
  · have hz : Ctx.val ⟨d.vol, i, 0⟩ (block_to_path d.vol block) = 0 := by
      rw [Fs.mapped, hslot] at hm
      by_contra hne
      rw [if_neg hne] at hm
      exact absurd hm (by simp)
    have hf := gas_get_block_hole hc hlt hio hz
    have hown := gas_get_block_ownStep hc block true
    generalize gas_get_block ⟨d.vol, i, 0⟩ block true = r at hf hown herr
    cases hf with
    | full c' hs hfew => exact absurd herr (by simp)
    | grafted c' m nb hg hlen hle hq =>
      have hnew := hg.newBlocks hc hleaf
      have hpos : nb ≠ [] := List.ne_nil_of_length_pos (by
        have := hg.length
        have := hg.le
        omega)
      have hlast : nb.getLast? = some (c'.val (block_to_path d.vol block)) := by
        rw [hg.val_path hleaf.1, List.getD_eq_getElem?_getD, ← List.getLast?_eq_getElem?]
        cases hl : nb.getLast? with
        | none => exact absurd (List.getLast?_eq_none_iff.mp hl) hpos
        | some b => rfl
      refine ⟨c', nb, _, rfl, hnew, hlast, hlen, fun k' block' hlt' => ?_⟩
      have hpath : block_to_path c'.v block' = block_to_path d.vol block' := by
        obtain ⟨_, _, _, _, he⟩ := hg.vol
        rw [he]
        rfl
      rw [Fs.mapped, Fs.mapped, show (d.set k c').vol = c'.v from rfl, hpath]
      have hleaf' := block_path_isLeaf hc hlt'
      by_cases hkk : k' = k
      · have hset : (d.set k c').slot k (block_to_path d.vol block') =
            c'.val (block_to_path d.vol block') := by
          obtain ⟨blkaddr, ctime, hin⟩ := hg.inode
          have hmode : has_blocks c'.inode.i_mode = true := by rw [hin]; exact hb
          exact Fs.slot_of_blocks (by simp [Fs.set]) hmode _
        rw [hkk, hset]
        by_cases hbb : block' = block
        · have hne : c'.val (block_to_path d.vol block) ≠ 0 := by
            have h1 := (hg.fresh _ (List.mem_of_getLast? hlast)).1.1
            have h2 := hc.geometry.data_pos
            exact fun e => by rw [e] at h1; exact absurd h1 (by omega)
          rw [hbb, if_neg hne, if_pos ⟨rfl, rfl⟩]
        · have hoff : ¬(block_to_path d.vol block' <+: block_to_path d.vol block) := fun hpre =>
            hbb (block_to_path_inj hc.geometry.toGeometry hlt' hlt
              (isLeaf_prefix_eq hleaf hleaf' hpre))
          have hold := hg.val _ hleaf'.1
          rw [if_neg fun hh => hoff hh.1, ← d.slot_of_blocks hk hb] at hold
          rw [hold]
          exact (if_neg fun hh => hbb hh.2).symm
      · rw [h.others hk hb hown hkk hleaf'.1]
        exact (if_neg fun hh => hkk hh.1).symm

/-- A volume of 32 blocks, of which the first nine are in use.  Block 6 is an indirect block with the
blocks 7 and 8. -/
def room_vol : Vol :=
  { small_vol true 0 with
    sbi := gas_super_block_fill ⟨MAGIC_NUMBER, 4096, 1, 1, 1, 32, 64⟩
    bam := fun _ bit => decide (bit < 9 ∨ 32 ≤ bit)
    words := fun b i => if b = 6 ∧ i = 0 then 7 else if b = 6 ∧ i = 1 then 8 else 0 }

/-- The file that holds them as its blocks 6 and 7. -/
def deep_inode : Inode :=
  { small_inode 2 S_IFREG 1 fun i => if i = 0 then 4 else if i = 6 then 6 else 0 with i_size := 28672 }

/-- A file of one block. -/
def short_inode : Inode := small_inode 3 S_IFREG 1 fun i => if i = 0 then 5 else 0

/-- The volume with the two. -/
def room_fs : Fs Bool := ⟨room_vol, fun k => some (if k then deep_inode else short_inode)⟩

theorem deep_val {v : Vol} (hw : v.words = room_vol.words) {q : List Nat} (hq : shape.IsPath q) :
    Ctx.val ⟨v, deep_inode, 0⟩ q = if q = [0] then 4 else if q = [6] then 6 else
      if q = [6, 0] then 7 else if q = [6, 1] then 8 else 0 := by
  rw [Ctx.val, hw]
  cases q with
  | nil => exact hq.elim
  | cons i q =>
    cases q with
    | nil => simp [val, deep_inode, small_inode]
    | cons j r =>
      obtain ⟨-, hl, -⟩ := isPath_cons.mp hq
      by_cases hi : i = 6
      · subst hi
        obtain rfl : r = [] := List.length_eq_zero_iff.mp (by simp only [List.length_cons] at hl; omega)
        simp [val, walk, deep_inode, small_inode, room_vol]
      · have h0 : i ≠ 0 := by
          rintro rfl
          simp only [List.length_cons] at hl
          omega
        simp [val, deep_inode, small_inode, hi, h0]

theorem room_slot (k : Bool) {q : List Nat} (hq : shape.IsPath q) :
    room_fs.slot k q = if k = true then
      (if q = [0] then 4 else if q = [6] then 6 else if q = [6, 0] then 7 else if q = [6, 1] then 8
        else 0)
      else if q = [0] then 5 else 0 := by
  have hb : has_blocks S_IFREG = true := by decide
  cases k with
  | true => exact (Fs.slot_of_blocks (i := deep_inode) rfl hb q).trans (deep_val rfl hq)
  | false =>
    refine (Fs.slot_of_blocks (i := short_inode) rfl hb q).trans ?_
    match q, hq with
    | [], hq => exact hq.elim
    | [i], _ => simp [Ctx.val, val, short_inode, small_inode]
    | i :: j :: r, hq =>
      obtain ⟨-, hl, -⟩ := isPath_cons.mp hq
      have h0 : i ≠ 0 := by
        rintro rfl
        simp only [List.length_cons] at hl
        omega
      simp [Ctx.val, val, short_inode, small_inode, h0]

theorem room_inUse {b : Nat} (h : b < 32768) : room_vol.inUse b = decide (b < 9 ∨ 32 ≤ b) := by
  have hmod : b % 32768 = b := Nat.mod_eq_of_lt h
  calc room_vol.inUse b = decide (b % 32768 < 9 ∨ 32 ≤ b % 32768) := rfl
    _ = decide (b < 9 ∨ 32 ≤ b) := by rw [hmod]

theorem room_sound : room_fs.Sound where
  geometry :=
    { blocksize := rfl
      blocksize_bits := rfl
      bits_per_block := rfl
      inodes_per_block := rfl
      data_pos := by decide
      covers := by decide
      nblocks_lt := by decide
      nblocks_le := by decide }
  padded b hb hno := by
    have hlt : b < 32768 := hb
    have hz : ¬(4 ≤ b ∧ b < 32) := hno
    refine (room_inUse hlt).trans (decide_eq_true ?_)
    omega
  one k k' q q' hq hq' hne he := by
    rw [room_slot k hq] at hne he
    rw [room_slot k' hq'] at he
    cases k <;> cases k' <;> simp only [if_true, Bool.false_eq_true, if_false] at hne he <;>
      split_ifs at hne he <;> simp_all
  zone k q hq hne := by
    rw [room_slot k hq] at hne ⊢
    show 4 ≤ _ ∧ _ < 32
    split_ifs at hne ⊢ <;> omega
  used k q hq hne := by
    have hlt : room_fs.slot k q < 9 := by
      rw [room_slot k hq]
      split_ifs <;> omega
    exact (room_inUse (by omega)).trans (decide_eq_true (Or.inl hlt))

/-- The short file grows an indirect block: its block 6 takes blocks 9 and 10, and the blocks of the
other file stay. -/
theorem room_grown : ∃ c' nb b,
    gas_get_block ⟨room_vol, short_inode, 0⟩ 6 true = ⟨c', none, some b, true⟩ ∧
      NewBlocks room_vol c'.v nb ∧ nb.length = 2 ∧
      (room_fs.set false c').mapped false 6 = some b ∧ (room_fs.set false c').mapped true 7 = some 8 := by
  have hmiss : Ctx.missing ⟨room_vol, short_inode, 0⟩ (block_to_path room_vol (6 : Nat)) = 2 := by
    decide
  have herr : (gas_get_block ⟨room_vol, short_inode, 0⟩ 6 true).err = none := by decide +kernel
  obtain ⟨-, -, hcreate⟩ := @gas_get_block_is_map Bool _ room_fs false short_inode 6 room_sound rfl
    (by decide) (fun _ => rfl) (by decide)
  obtain ⟨c', nb, b, hrun, hnew, -, hlen, hmap⟩ := hcreate rfl herr
  refine ⟨c', nb, b, hrun, hnew, hlen.trans hmiss, ?_, ?_⟩
  · rw [hmap false 6 (by decide), if_pos ⟨rfl, rfl⟩]
  · rw [hmap true 7 (by decide), if_neg (by decide)]
    rfl

omit [DecidableEq K] in
/-- **Running out of space is atomic.**  A call that returns `-ENOSPC` leaves the block map, the
pointers of the inode and every block the tree reaches as they were, and it returns `-ENOSPC` if and
only if there are fewer free blocks than null slots on the path. -/
theorem gas_get_block_full_iff (h : d.Sound) (hk : d.inodes k = some i)
    (hb : has_blocks i.i_mode = true) (hio : ∀ n, d.vol.env.bread n = true)
    (hlt : block < d.vol.sbi.s_nblocks) :
    ((gas_get_block ⟨d.vol, i, 0⟩ block true).err = some .ENOSPC →
        Same ⟨d.vol, i, 0⟩ (gas_get_block ⟨d.vol, i, 0⟩ block true).c) ∧
      ((gas_get_block ⟨d.vol, i, 0⟩ block true).err = some .ENOSPC ↔
        d.vol.free.card < Ctx.missing ⟨d.vol, i, 0⟩ (block_to_path d.vol block)) := by
  have hc := h.treeOk hk hb
  by_cases hz : Ctx.val ⟨d.vol, i, 0⟩ (block_to_path d.vol block) = 0
  · have hf := gas_get_block_hole hc hlt hio hz
    generalize gas_get_block ⟨d.vol, i, 0⟩ block true = r at hf
    cases hf with
    | full c' hs hfew => exact ⟨fun _ => hs, iff_of_true rfl hfew⟩
    | grafted c' m nb hg hlen hle hq =>
      refine ⟨fun herr => absurd herr (by simp), iff_of_false (by simp) ?_⟩
      exact not_lt.mpr hle
  · obtain ⟨c', ht, heq⟩ := gas_get_block_mapped hio hz true
    have hm := missing_of_mapped hz
    rw [heq]
    exact ⟨fun herr => absurd herr (by simp), iff_of_false (by simp) (by rw [hm]; omega)⟩

/-- On the small volume, whose two data blocks are taken, filling the hole fails. -/
theorem small_full : (gas_get_block ⟨small_vol true 5, small_inode 2 S_IFREG 1 fun i =>
      if i = 6 then 4 else 0, 0⟩ 0 true).err = some .ENOSPC ↔
    (small_vol true 5).free.card < Ctx.missing ⟨small_vol true 5, small_inode 2 S_IFREG 1 fun i =>
      if i = 6 then 4 else 0, 0⟩ (block_to_path (small_vol true 5) 0) :=
  (@gas_get_block_full_iff Bool (small_fs true 5 3) true _ 0 (small_accounted true 3).1 rfl
    (by decide) (fun _ => rfl) (by decide)).2

end GasFs
