/-
# The first six blocks of a file

A block below `DIRECT` has its pointer in the inode, so `gas_get_block` reads no buffer for it: it
finds the pointer, or allocates one block, or there is none left (`gas_get_block_direct`).

The directory functions need this for the first pages of a directory: with no buffer to read, a call
cannot fail with `-EIO` and makes no request, so the number of requests before the next page read is
known.  `DirectBlock` has one case for each of the three ends, with the whole result of the call in
each.
-/
import GasFs.Itree.Alloc

namespace GasFs

/-- What `gas_get_block` with `create` does to a direct block.  In the second case the block taken
is free, its bit is set, and the slot of the inode holds it. -/
inductive DirectBlock (c : Ctx) (n : Nat) : GetBlock → Prop
  | found (hne : c.inode.blkaddr n ≠ 0) :
      DirectBlock c n ⟨c, none, some (c.inode.blkaddr n), false⟩
  | new (b : Nat) (hint : Fin c.v.sbi.s_bam_blocks) (hz : c.inode.blkaddr n = 0)
      (hzone : c.v.InZone b) (hfree : c.v.inUse b = false) :
      DirectBlock c n
        ⟨{ c with
            v := { c.v with bam := write_bit c.v.bam (b / 32768) (b % 32768) true, s_bam_last := hint }
            inode := { c.inode with blkaddr := Function.update c.inode.blkaddr n b, i_ctime := c.v.now } },
          none, some b, true⟩
  | full (hz : c.inode.blkaddr n = 0) (hfull : c.v.BamFull) :
      DirectBlock c n ⟨c, some .ENOSPC, none, false⟩

/-- **A direct block is found, allocated, or the volume is full.** -/
theorem gas_get_block_direct {c : Ctx} (hg : TreeGeometry c.v) (hp : c.v.MapPadded) {n : Nat}
    (hn : n < DIRECT) (hlt : n < c.v.sbi.s_nblocks) : DirectBlock c n (gas_get_block c n true) := by
  have hpath : block_to_path c.v n = [n] := by
    rw [block_to_path_eq hg.toGeometry, if_neg (by omega), if_pos hn]
  rw [gas_get_block, hpath]
  simp only [gas_get_block_loop, get_branch, add_chain, Ctx.load]
  by_cases hz : c.inode.blkaddr n = 0
  · rcases gas_new_block_cases hg.map hp with ⟨b, hint, heq, hzone, hfree⟩ | ⟨heq, hfull⟩
    · obtain ⟨hint0, hback⟩ := hg.map.zone_int hzone
      rw [hg.bits_per_block] at heq
      have h := DirectBlock.new b hint hz hzone hfree
      simp [hz, alloc_branch, heq, hint0, alloc_branch_loop, splice_branch, verify_chain, Ctx.load,
        Ctx.store, hback]
      exact h
    · have h := DirectBlock.full hz hfull
      simp [hz, alloc_branch, heq, int32, free_keys]
      exact h
  · have h := DirectBlock.found hz
    simp [hz, get_branch_loop]
    exact h

end GasFs
