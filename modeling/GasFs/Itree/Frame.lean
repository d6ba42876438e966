/-
# What truncation and eviction leave alone

`Itree/Cut.lean` says what is left of a sound tree that was cut.  Whoever only wants to know that
nothing else happened need not know that the tree was sound: `TreeStep` is what the functions on the
tree may change at all, the block map, contents of blocks, the pointers, cached pages and two times of
the inode at hand.  `gas_truncate` is such a step on any tree, and `gas_evict_inode` such a step and the
one bit of the inode map that it clears (`gas_evict_inode_iam`).

Every function of `gas_itree.c` on the way of a truncation has a lemma here, proved from those of
the functions it calls, without any assumption on the state.  Reads may fail, pointers may be shared
or point outside the data zone; the frame is the same.

The frame is what the operations on directories and inodes use: they evict an inode and need to know
that the superblock, the environment and the bits of other inodes are as before.
-/
import GasFs.Accounts

namespace GasFs

/-! ## 1. Steps on a tree

A relation that is reflexive and transitive, and holds of a store and of a request. -/

/-- What the functions on the tree may change.  Mode, owner, size and link count of the inode are
not among it. -/
structure TreeStep (c c' : Ctx) : Prop where
  vol : BlockStep c.v c'.v
  inode : InodeStep c.inode c'.inode

section Tree

variable {c c' c'' : Ctx}

theorem TreeStep.refl (c : Ctx) : TreeStep c c := ⟨BlockStep.refl _, InodeStep.refl _⟩

theorem TreeStep.trans (h : TreeStep c c') (h' : TreeStep c' c'') : TreeStep c c'' :=
  ⟨h.vol.trans h'.vol, h.inode.trans h'.inode⟩

/-- The volume alone changes. -/
theorem TreeStep.of_vol {v : Vol} (h : BlockStep c.v v) : TreeStep c { c with v := v } :=
  ⟨h, InodeStep.refl _⟩

/-- The inode alone changes. -/
theorem TreeStep.of_inode {i : Inode} (h : InodeStep c.inode i) : TreeStep c { c with inode := i } :=
  ⟨BlockStep.refl _, h⟩

theorem Ticked.treeStep (h : Ticked c c') : TreeStep c c' :=
  ⟨h.blockStep, by rw [h.inode]; exact InodeStep.refl _⟩

theorem store_treeStep (c : Ctx) (p : Cell) (x : Nat) : TreeStep c (c.store p x) :=
  ⟨store_blockStep c p x, (store_sameInode c p x).step⟩

theorem sb_bread_blockStep (v : Vol) : BlockStep v (sb_bread v).2 := ⟨_, _, _, _, rfl⟩

/-- A loop of steps. -/
theorem foldl_treeStep {β : Type} {f : Ctx → β → Ctx} (hf : ∀ c b, TreeStep c (f c b)) :
    ∀ (bs : List β) (c : Ctx), TreeStep c (bs.foldl f c)
  | [], c => TreeStep.refl c
  | b :: bs, c => (hf c b).trans (foldl_treeStep hf bs (f c b))

/-! ## 2. The functions

In the order in which they call each other, the innermost first. -/

theorem free_data_treeStep (c : Ctx) (ps : List Cell) : TreeStep c (free_data c ps) := by
  refine foldl_treeStep (fun c p => ?_) ps c
  dsimp only
  split
  · exact TreeStep.refl c
  · exact (store_treeStep c p 0).trans (.of_vol (gas_free_block_blockStep _ _))

theorem free_branches_treeStep : ∀ (depth : Nat) (c : Ctx) (ps : List Cell),
    TreeStep c (free_branches depth c ps)
  | 0, c, ps => free_data_treeStep c ps
  | depth + 1, c, ps => by
    refine foldl_treeStep (fun c p => ?_) ps c
    dsimp only
    by_cases hz : c.load p = 0
    · rw [if_pos hz]
      exact TreeStep.refl c
    · rw [if_neg hz]
      have hread := sb_bread_blockStep (c.store p 0).v
      generalize sb_bread (c.store p 0).v = r at hread
      obtain ⟨_ | _, v⟩ := r
      · exact (store_treeStep c p 0).trans (.of_vol hread)
      · exact ((store_treeStep c p 0).trans (.of_vol hread)).trans
          ((free_branches_treeStep depth _ _).trans (.of_vol (gas_free_block_blockStep _ _)))

theorem get_branch_ticked (c : Ctx) (o : List Nat) : Ticked c (get_branch c o).c := by
  cases o with
  | nil => exact Ticked.refl c
  | cons i r => exact (get_branch_spec c (o := i :: r) (by simp)).ticked

theorem find_shared_treeStep (c : Ctx) (offsets : List Nat) :
    TreeStep c (find_shared c offsets).c := by
  have hread := (store_treeStep c .nr 0).trans (get_branch_ticked (c.store .nr 0)
    (offsets.take (shared_depth offsets offsets.length))).treeStep
  unfold find_shared
  dsimp only
  split_ifs
  · exact hread
  · exact hread
  · exact hread.trans ((store_treeStep _ _ _).trans (store_treeStep _ _ _))

theorem clear_ends_treeStep (chain : List Indirect) (n : Nat) : ∀ (i : Nat) (c : Ctx),
    TreeStep c (clear_ends chain n i c)
  | 0, c => TreeStep.refl c
  | i + 1, c => (free_branches_treeStep _ c _).trans (clear_ends_treeStep chain n i _)

theorem do_indirects_treeStep (first_whole : Nat) (c : Ctx) :
    TreeStep c (do_indirects first_whole c) := by
  refine foldl_treeStep (fun c w => ?_) _ c
  dsimp only
  split
  · exact store_treeStep _ _ _
  · exact (store_treeStep _ _ _).trans
      ((store_treeStep _ _ _).trans (free_branches_treeStep _ _ _))

theorem cut_body_treeStep (c : Ctx) : ∀ o : List Nat, TreeStep c (cut_body c o)
  | [] => TreeStep.refl c
  | [_] => (free_data_treeStep c _).trans (do_indirects_treeStep _ _)
  | i :: i' :: r => by
    have hs := find_shared_treeStep c (i :: i' :: r)
    have hnr : TreeStep c (if (find_shared c (i :: i' :: r)).c.nr = 0 then
        (find_shared c (i :: i' :: r)).c else free_branches ((i :: i' :: r).length - 1 -
          (find_shared c (i :: i' :: r)).at_) (find_shared c (i :: i' :: r)).c [.nr]) := by
      split
      · exact hs
      · exact hs.trans (free_branches_treeStep _ _ _)
    exact hnr.trans ((clear_ends_treeStep _ _ _ _).trans (do_indirects_treeStep _ _))

/-- **`gas_truncate_inode` steps on the tree**, sound or not. -/
theorem gas_truncate_inode_treeStep (c : Ctx) : TreeStep c (gas_truncate_inode c) := by
  have hpage : TreeStep c (block_truncate_page c) :=
    ⟨(block_truncate_page_cut c).1.vol, (block_truncate_page_cut c).1.inode⟩
  obtain ⟨hnil, hne⟩ := gas_truncate_inode_eq c
  by_cases ho : cut_path c = []
  · rw [hnil ho]
    exact hpage
  · obtain ⟨mtime, ctime, h⟩ := hne ho
    rw [h]
    exact hpage.trans ((cut_body_treeStep _ _).trans (.of_inode ⟨_, _, _, _, rfl⟩))

theorem gas_truncate_treeStep (c : Ctx) : TreeStep c (gas_truncate c) := by
  unfold gas_truncate
  split
  · exact gas_truncate_inode_treeStep c
  · exact TreeStep.refl c

end Tree

/-! ## 3. Eviction

After the tree is cut to nothing, the number goes back to the inode map. -/

/-- The same volume, whatever its maps and blocks hold. -/
structure SameVol (v v' : Vol) : Prop where
  sbi : v'.sbi = v.sbi
  bits : v'.s_blocksize_bits = v.s_blocksize_bits
  env : v'.env = v.env

theorem SameVol.refl (v : Vol) : SameVol v v := ⟨rfl, rfl, rfl⟩

theorem SameVol.trans {v v' v'' : Vol} (h : SameVol v v') (h' : SameVol v' v'') : SameVol v v'' :=
  ⟨h'.sbi.trans h.sbi, h'.bits.trans h.bits, h'.env.trans h.env⟩

theorem BlockStep.sameVol {v v' : Vol} (h : BlockStep v v') : SameVol v v' := by
  obtain ⟨_, _, _, _, rfl⟩ := h
  exact ⟨rfl, rfl, rfl⟩

theorem BlockStep.inodeInUse {v v' : Vol} (h : BlockStep v v') (k : Nat) :
    v'.inodeInUse k = v.inodeInUse k := by
  obtain ⟨_, _, _, _, rfl⟩ := h
  rfl

/-- `gas_free_inode` clears the bit of its number, if that has one. -/
theorem gas_free_inode_iam {v : Vol} (hg : Geometry v) (inode : Inode) :
    SameVol v (gas_free_inode v inode) ∧ ∀ k, k ≠ inode.i_ino →
      (gas_free_inode v inode).inodeInUse k = v.inodeInUse k := by
  obtain ⟨words, hclear, -⟩ := gas_clear_inode_eq v inode.i_ino
  unfold gas_free_inode
  dsimp only
  split_ifs
  · exact ⟨SameVol.refl v, fun _ _ => rfl⟩
  · exact ⟨SameVol.refl v, fun _ _ => rfl⟩
  · rw [hclear, hg.two_pow_k]
    refine ⟨⟨rfl, rfl, rfl⟩, fun k hk => ?_⟩
    simp only [Vol.inodeInUse, write_bit_block, if_neg hk]

/-- **Eviction of an inode without links** clears no bit of the inode map but its own, and the
volume is the same one. -/
theorem gas_evict_inode_iam {v : Vol} (hg : Geometry v) {i : Inode} (hl : i.i_nlink = 0) :
    SameVol v (gas_evict_inode ⟨v, i, 0⟩).v ∧ ∀ k, k ≠ i.i_ino →
      (gas_evict_inode ⟨v, i, 0⟩).v.inodeInUse k = v.inodeInUse k := by
  have hcut := gas_truncate_treeStep ⟨v, i.emptied, 0⟩
  rw [gas_evict_inode_nolinks v hl]
  generalize gas_truncate ⟨v, i.emptied, 0⟩ = c at hcut
  obtain ⟨hvol, hinode⟩ := hcut
  have hnlink : c.inode.i_nlink = 0 := hinode.nlink.trans hl
  have hino : c.inode.i_ino = i.i_ino := hinode.ino
  obtain ⟨hsame, hbit⟩ := gas_free_inode_iam (hvol.geometry hg) c.inode
  dsimp only
  rw [if_pos hnlink]
  refine ⟨hvol.sameVol.trans hsame, fun k hk => ?_⟩
  rw [hbit k (by rw [hino]; exact hk)]
  exact hvol.inodeInUse k

end GasFs
