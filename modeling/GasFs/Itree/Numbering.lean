/-
# Logical blocks and tree paths correspond one to one

`GasFs.Itree.Paths` follows `block_to_path` on a volume with blocks of 4096 bytes.  Here the blocks
have any size: with `N` pointers in an indirect block the tree has `6 + N + N^2 + N^3` data slots, and
below that number `block_to_path` is the numbering of the forest of `Lib/LevelTree.lean`.  The running
remainders of the source are the quotients of the forest (`block_to_path_eq_path`), so that order and
completeness are those of the forest: `block_to_path_numbers`.

The tree has room for `tree_capacity N` blocks, and a volume may have more blocks than that.  The
last branch of `block_to_path` does not check, so a block beyond the capacity gets a path whose
second index is out of range; `tree_blocks` is the number of blocks for which this does not happen.
That there are volumes on which it does is the subject of `Itree/Range.lean`.
-/
import GasFs.BlockCount

namespace GasFs

open LevelTree

/-- The path of a data slot, when an indirect block has `N` pointers. -/
def IsDataPath (N : Nat) (q : List Nat) : Prop :=
  (∃ o₀ < 6, q = [o₀]) ∨ (∃ a < N, q = [6, a]) ∨ (∃ a < N, ∃ b < N, q = [7, a, b]) ∨
    ∃ a < N, ∃ b < N, ∃ c < N, q = [8, a, b, c]

/-- They are the leaves of a forest of six direct leaves and trees of one, two and three levels. -/
theorem isLeaf_iff_isDataPath {N : Nat} {q : List Nat} :
    LevelTree.IsLeaf N 3 0 6 q ↔ IsDataPath N q := by
  constructor
  · rintro (⟨i, hi, rfl⟩ | ⟨p, ⟨i, hi, rfl⟩ | ⟨p, ⟨i, hi, rfl⟩ | ⟨p, ⟨i, hi, rfl⟩, a, ha, rfl⟩,
      b, hb, rfl⟩, c, hc, rfl⟩)
    · exact Or.inl ⟨i, hi, by rw [Nat.zero_add]⟩
    · obtain rfl := Nat.lt_one_iff.mp hi
      exact Or.inr (Or.inl ⟨c, hc, rfl⟩)
    · obtain rfl := Nat.lt_one_iff.mp hi
      exact Or.inr (Or.inr (Or.inl ⟨b, hb, c, hc, rfl⟩))
    · obtain rfl := Nat.lt_one_iff.mp hi
      exact Or.inr (Or.inr (Or.inr ⟨a, ha, b, hb, c, hc, rfl⟩))
  · rintro (⟨i, hi, rfl⟩ | ⟨a, ha, rfl⟩ | ⟨a, ha, b, hb, rfl⟩ | ⟨a, ha, b, hb, c, hc, rfl⟩)
    · exact Or.inl ⟨i, hi, by rw [Nat.zero_add]⟩
    · exact Or.inr ⟨[6], Or.inl ⟨0, Nat.one_pos, rfl⟩, a, ha, rfl⟩
    · exact Or.inr ⟨[7, a], Or.inr ⟨[7], Or.inl ⟨0, Nat.one_pos, rfl⟩, a, ha, rfl⟩, b, hb, rfl⟩
    · exact Or.inr ⟨[8, a, b], Or.inr ⟨[8, a], Or.inr ⟨[8], ⟨0, Nat.one_pos, rfl⟩, a, ha, rfl⟩, b, hb,
        rfl⟩, c, hc, rfl⟩

theorem tree_capacity_eq (N : Nat) : tree_capacity N = capacity N 3 6 := by
  simp only [tree_capacity, capacity, DIRECT]
  ring

theorem INDIRCOUNT_pos (v : Vol) : 0 < INDIRCOUNT v := Nat.two_pow_pos _

/-- The blocks that have a path within the tree: those of the volume, as far as the tree reaches. -/
def tree_blocks (v : Vol) : Nat := min v.sbi.s_nblocks (tree_capacity (INDIRCOUNT v))

section Numbering

variable {v : Vol} {b b' : Nat}

/-- Below that number `block_to_path` is the path of the forest.  The source subtracts what the
smaller trees hold before each division, and the forest does the same. -/
theorem block_path_eq (hb : b < tree_blocks v) :
    block_to_path v b = path (INDIRCOUNT v) 3 0 6 b :=
  block_to_path_eq_path (INDIRCOUNT_pos v) (Nat.lt_of_lt_of_le hb (Nat.min_le_left _ _))
    (Nat.lt_of_lt_of_le hb (Nat.min_le_right _ _))

/-- **Later blocks are those whose slots lie to the right.** -/
theorem block_path_rightOf_iff (hb : b < tree_blocks v) (hb' : b' < tree_blocks v) :
    RightOf (block_to_path v b) (block_to_path v b') ↔ b < b' := by
  rw [block_path_eq hb, block_path_eq hb']
  rcases eq_or_ne b b' with rfl | hne
  · refine iff_of_false ?_ (Nat.lt_irrefl b)
    rintro ⟨l, x, y, hy, hx, hxy, -⟩
    rw [hx] at hy
    exact absurd (Option.some.inj hy) (Nat.ne_of_lt hxy)
  · rw [rightOf_iff_lt fun hpre => hne (path_antichain hpre), path_lt_iff]

/-- When the volume has a block for every slot, every data slot has a block. -/
theorem isDataPath_iff (hfull : tree_capacity (INDIRCOUNT v) ≤ v.sbi.s_nblocks) {q : List Nat} :
    IsDataPath (INDIRCOUNT v) q ↔ ∃ b < tree_blocks v, block_to_path v b = q := by
  have hblocks : tree_blocks v = capacity (INDIRCOUNT v) 3 6 := by
    rw [tree_blocks, Nat.min_eq_right hfull, tree_capacity_eq]
  rw [← isLeaf_iff_isDataPath, isLeaf_iff (INDIRCOUNT_pos v)]
  refine exists_congr fun b => ?_
  rw [hblocks]
  refine and_congr_right fun hb => ?_
  rw [block_path_eq (hblocks ▸ hb)]

end Numbering

/-- **Logical blocks and tree paths correspond one to one.**  Different blocks have different paths,
and later blocks have larger ones; if the volume has blocks enough, every path to a data slot is the
path of a block.  At the block where a file is cut, the slots to the right of its path are those of
the later blocks. -/
theorem block_to_path_numbers (v : Vol) :
    (∀ b < tree_blocks v, ∀ b' < tree_blocks v, block_to_path v b = block_to_path v b' → b = b') ∧
      (∀ b b', b < b' → b' < tree_blocks v → block_to_path v b < block_to_path v b') ∧
      (tree_capacity (INDIRCOUNT v) ≤ v.sbi.s_nblocks → ∀ q, IsDataPath (INDIRCOUNT v) q →
        ∃ b < tree_blocks v, block_to_path v b = q) ∧
      ∀ size, first_cut_block v size < tree_blocks v →
        (∀ b < tree_blocks v,
          RightOf (block_to_path v (first_cut_block v size)) (block_to_path v b) ↔
            first_cut_block v size < b) ∧
        (tree_capacity (INDIRCOUNT v) ≤ v.sbi.s_nblocks →
          {q | IsDataPath (INDIRCOUNT v) q ∧
              RightOf (block_to_path v (first_cut_block v size)) q} =
            (fun b : Nat => block_to_path v b) '' {b | first_cut_block v size < b ∧ b < tree_blocks v}) := by
  refine ⟨fun b hb b' hb' he => ?_, fun b b' hlt hb' => ?_, fun hfull q hq => (isDataPath_iff hfull).mp hq,
    fun size hcut => ⟨fun b hb => block_path_rightOf_iff hcut hb, fun hfull => ?_⟩⟩
  · rw [block_path_eq hb, block_path_eq hb'] at he
    exact path_inj he
  · rw [block_path_eq (Nat.lt_trans hlt hb'), block_path_eq hb']
    exact path_lt hlt
  · ext q
    constructor
    · rintro ⟨hq, hright⟩
      obtain ⟨b, hb, rfl⟩ := (isDataPath_iff hfull).mp hq
      exact ⟨b, ⟨(block_path_rightOf_iff hcut hb).mp hright, hb⟩, rfl⟩
    · rintro ⟨b, ⟨hlt, hb⟩, rfl⟩
      exact ⟨(isDataPath_iff hfull).mpr ⟨b, hb, rfl⟩, (block_path_rightOf_iff hcut hb).mpr hlt⟩

end GasFs
