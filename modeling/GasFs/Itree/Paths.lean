/-
# Logical blocks as paths

`block_to_path` turns a logical block into a path of the forest of `Lib/PtrTree.lean`: nine root
slots, six of them holding data blocks and the other three trees of one, two and three levels.
This file fixes that shape, says what the path of a block looks like, and proves the order fact
that `gas_truncate_inode` lives on: the path of a later block branches off to the right of the
path of an earlier one (`block_to_path_lt`, `branches_right`).

The results about trees ask that the volume has no more blocks than one file's tree can address,
`2 ^ 30`.  On a larger volume the last branch of `block_to_path` gives paths whose second index does
not fit into a block; that is not excluded by the source, and `Itree/Range.lean` says where it
happens.

With 1024 pointers to a block the offsets are computed by divisions by 1024, so most lemmas here are
arithmetic on four cases, one for each branch of the source.  For other block sizes see
`Itree/Numbering.lean`, where the same facts come from `Lib/LevelTree.lean`.
-/
import GasFs.Itree
import GasFs.Lib.PtrTree

namespace GasFs

open PtrTree

/-- The volumes of the block tree results: `mkfs` geometry, and no more blocks than the tree of one
file can reach.  Then every logical block has a path with all its indices in range. -/
structure TreeGeometry (v : Vol) : Prop extends Geometry v where
  nblocks_le : v.sbi.s_nblocks ≤ 1073741824

/-- The forest under `blkaddr`: slots 0 to 5 hold data blocks, 6, 7 and 8 head trees of one, two
and three levels of 1024 pointers. -/
def shape : Shape := ⟨1024, 9, fun i => i - 5⟩

/-- The pointer in the slot that a path names. -/
def Ctx.val (c : Ctx) (q : List Nat) : Nat := PtrTree.val c.v.words c.inode.blkaddr q

/-- The paths that name a data block. -/
def IsLeaf (q : List Nat) : Prop := shape.IsPath q ∧ q.length = q.headD 0 - 5 + 1

theorem isPath_cons {i : Nat} {r : List Nat} :
    shape.IsPath (i :: r) ↔ i < 9 ∧ r.length ≤ i - 5 ∧ ∀ j ∈ r, j < 1024 := Iff.rfl

/-- No path goes on behind a leaf. -/
theorem IsLeaf.last {q : List Nat} {j : Nat} (h : IsLeaf q) : ¬shape.IsPath (q ++ [j]) := by
  obtain ⟨hpath, hlen⟩ := h
  intro hq
  cases q with
  | nil => exact hpath.elim
  | cons i r =>
    have hle : (r ++ [j]).length ≤ i - 5 := (isPath_cons.mp hq).2.1
    rw [List.length_append, List.length_singleton] at hle
    rw [List.length_cons, List.headD_cons] at hlen
    omega

/-! ## 1. The path of a block

What the four branches of the source give. -/

/-- The four branches of `block_to_path` on a volume with blocks of 4096 bytes. -/
theorem block_to_path_eq {v : Vol} (hg : Geometry v) (b : Nat) :
    block_to_path v b =
      if v.sbi.s_nblocks ≤ b then []
      else if b < 6 then [b]
      else if b < 1030 then [6, b - 6]
      else if b < 1049606 then [7, (b - 1030) / 1024, (b - 1030) % 1024]
      else [8, (b - 1049606) / 1024 / 1024, (b - 1049606) / 1024 % 1024,
        (b - 1049606) % 1024] := by
  unfold block_to_path
  simp only [hg.indircount, Int.toNat_natCast, DIRECT, show 1024 * 1024 = 1048576 from rfl]
  by_cases h0 : v.sbi.s_nblocks ≤ b
  · rw [if_neg (by omega), if_pos (by omega), if_pos h0]
  · rw [if_neg (by omega), if_neg (by omega), if_neg h0]
    by_cases h1 : b < 6
    · rw [if_pos h1, if_pos h1]
    · rw [if_neg h1, if_neg h1]
      by_cases h2 : b < 1030
      · rw [if_pos (by omega), if_pos h2]
      · rw [if_neg (by omega), if_neg h2]
        have e1 : b - 6 - 1024 = b - 1030 := by omega
        have e2 : b - 6 - 1024 - 1048576 = b - 1049606 := by
          rw [Nat.sub_sub, Nat.sub_sub]
        by_cases h3 : b < 1049606
        · rw [if_pos (by omega), if_pos h3, e1]
        · rw [if_neg (by omega), if_neg h3, e2]

/-- A block has a path exactly when it lies below `s_nblocks`. -/
theorem block_to_path_eq_nil_iff {v : Vol} (hg : Geometry v) {b : Nat} :
    block_to_path v b = [] ↔ v.sbi.s_nblocks ≤ b := by
  rw [block_to_path_eq hg]
  split_ifs <;> simp_all

/-- The paths depend on the superblock. -/
theorem block_to_path_step {v v' : Vol} (h : BlockStep v v') (block : Int) :
    block_to_path v' block = block_to_path v block := by
  obtain ⟨_, _, _, _, rfl⟩ := h
  rfl

/-- **The path of a block names a data slot of the tree**: every offset is in range, and the length
is that of the tree the path is in. -/
theorem block_to_path_isLeaf {v : Vol} (hg : TreeGeometry v) {b : Nat}
    (h : block_to_path v b ≠ []) : IsLeaf (block_to_path v b) := by
  have hb : b < v.sbi.s_nblocks := by
    rw [ne_eq, block_to_path_eq_nil_iff hg.toGeometry] at h
    omega
  have hn := hg.nblocks_le
  rw [block_to_path_eq hg.toGeometry, if_neg (by omega)]
  split_ifs with h1 h2 h3 <;>
    simp only [IsLeaf, isPath_cons, List.length_cons, List.length_nil, List.headD_cons,
      List.mem_cons, List.not_mem_nil, or_false, forall_eq_or_imp, forall_eq, false_imp_iff,
      implies_true, and_true] <;> omega

/-- **Later blocks have lexicographically larger paths.** -/
theorem block_to_path_lt {v : Vol} (hg : Geometry v) {b b' : Nat} (hlt : b < b')
    (hb' : b' < v.sbi.s_nblocks) : block_to_path v b < block_to_path v b' := by
  have hn : ¬v.sbi.s_nblocks ≤ b := by omega
  have hn' : ¬v.sbi.s_nblocks ≤ b' := by omega
  rw [block_to_path_eq hg, block_to_path_eq hg, if_neg hn, if_neg hn']
  split_ifs <;>
    simp only [List.cons_lt_cons_iff, List.not_lt_nil, and_false, or_false, true_and] <;> omega

/-! ## 2. Where two paths part

A truncation cuts off what leaves its path to the right. -/

/-- `q` leaves `o` to the right: up to some level they agree, and there `q` has the larger index.  A
path that goes on from `o` does not leave it. -/
def RightOf (o q : List Nat) : Prop :=
  ∃ l x y, q[l]? = some y ∧ o[l]? = some x ∧ x < y ∧ q.take l = o.take l

/-- To leave a path to the right is to be lexicographically larger, unless the path just ends. -/
theorem rightOf_iff_lt {o q : List Nat} (hpre : ¬o <+: q) : RightOf o q ↔ o < q := by
  constructor
  · rintro ⟨l, x, y, hy, hx, hxy, htake⟩
    obtain ⟨hlq, rfl⟩ := List.getElem?_eq_some_iff.mp hy
    obtain ⟨hlo, rfl⟩ := List.getElem?_eq_some_iff.mp hx
    refine List.lt_iff_exists.mpr (Or.inr ⟨l, hlo, hlq, fun j hj => ?_, hxy⟩)
    have hget := congrArg (fun r : List Nat => r[j]?) htake
    simp only [List.getElem?_take_of_lt hj] at hget
    rw [List.getElem?_eq_getElem (by omega), List.getElem?_eq_getElem (by omega)] at hget
    exact (Option.some.inj hget).symm
  · intro h
    rcases List.lt_iff_exists.mp h with ⟨htake, -⟩ | ⟨l, h1, h2, heq, hlt⟩
    · exact absurd (htake ▸ List.take_prefix o.length q) hpre
    · refine ⟨l, o[l], q[l], List.getElem?_eq_getElem h2, List.getElem?_eq_getElem h1, hlt, ?_⟩
      refine List.ext_getElem (by simp; omega) fun j hj _ => ?_
      have hjl : j < l := by simp at hj; omega
      simp [heq j hjl]

/-- A leaf path that is lexicographically larger than another one leaves it to the right: no
leaf path is a proper prefix of a leaf path. -/
theorem branches_right {o q : List Nat} (ho : IsLeaf o) (hq : IsLeaf q) (h : o < q) :
    RightOf o q := by
  refine (rightOf_iff_lt fun hpre => ?_).mpr h
  obtain ⟨t, rfl⟩ := hpre
  -- equal first offsets force equal lengths
  have hhead : (o ++ t).headD 0 = o.headD 0 := by
    cases o with
    | nil => exact absurd rfl ho.1.ne_nil
    | cons i r => rfl
  have hlen : (o ++ t).length = o.length := by rw [hq.2, ho.2, hhead]
  obtain rfl : t = [] := List.eq_nil_of_length_eq_zero (by rw [List.length_append] at hlen; omega)
  rw [List.append_nil] at h
  exact List.lt_irrefl _ h

/-- No data slot lies below another one: the first index determines the length. -/
theorem isLeaf_prefix_eq {o q : List Nat} (ho : IsLeaf o) (hq : IsLeaf q) (h : q <+: o) :
    q = o := by
  refine h.eq_of_length ?_
  obtain ⟨t, rfl⟩ := h
  have hhead : (q ++ t).headD 0 = q.headD 0 := by
    cases q with
    | nil => exact absurd rfl hq.1.ne_nil
    | cons i r => rfl
  rw [ho.2, hq.2, hhead]

/-- Different blocks have different paths. -/
theorem block_to_path_inj {v : Vol} (hg : Geometry v) {b b' : Nat} (hb : b < v.sbi.s_nblocks)
    (hb' : b' < v.sbi.s_nblocks) (h : block_to_path v b = block_to_path v b') : b = b' := by
  rcases Nat.lt_trichotomy b b' with hlt | heq | hgt
  · have hp := block_to_path_lt hg hlt hb'
    rw [h] at hp
    exact absurd hp (List.lt_irrefl _)
  · exact heq
  · have hp := block_to_path_lt hg hgt hb
    rw [h] at hp
    exact absurd hp (List.lt_irrefl _)

/-- The path of a later block leaves the path of an earlier one to the right. -/
theorem rightOf_of_lt {v : Vol} (hg : TreeGeometry v) {b b' : Nat} (hlt : b < b')
    (hb' : b' < v.sbi.s_nblocks) : RightOf (block_to_path v b) (block_to_path v b') := by
  have hne : ∀ {x : Nat}, x < v.sbi.s_nblocks → block_to_path v x ≠ [] := fun hx e =>
    absurd ((block_to_path_eq_nil_iff hg.toGeometry).mp e) (by omega)
  exact branches_right (block_to_path_isLeaf hg (hne (hlt.trans hb')))
    (block_to_path_isLeaf hg (hne hb')) (block_to_path_lt hg.toGeometry hlt hb')

end GasFs
