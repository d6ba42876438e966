/-
# Truncation and failing reads

`find_shared` drops the error of `get_branch`.  A path that ends at a block which cannot be read looks
to it like one that ends at a hole, so it takes the pointer to that block out of its slot and hands
the whole subtree to `free_branches`, together with the blocks in front of the end of file.

`KeepsData` is what a truncation owes to the data that stays.  `truncate_keeps_data_iff` says when it
pays: exactly if the first read that fails on the way down leads to no block that stays.

The failing read is not the last one made.  `find_shared` fails to read an indirect block, and
`free_branches` reads it again a moment later and succeeds, so it frees everything below it.  If the
second read fails too, the pointer to the block is gone all the same and the blocks below it stay
marked.

The condition names the requests.  `FailsAt` says at which level of the path the first failing read
comes, in terms of the answers of the environment; a truncation whose reads all succeed meets the
condition with nothing to show.
-/
import GasFs.Itree.Truncate
import GasFs.Accounts
import GasFs.Dir.Room

namespace GasFs

open PtrTree

/-! ## 1. Data that stays

In front of the end of file means below `first_cut_block`. -/

/-- A logical block is mapped as before, and the blocks on the way to it are marked.  So a later
reader finds it, and no later allocation takes it away. -/
structure DataKept (c c' : Ctx) (b : Nat) : Prop where
  val : c'.val (block_to_path c.v b) = c.val (block_to_path c.v b)
  used : c.val (block_to_path c.v b) ≠ 0 → ∀ s, s ≠ [] → s <+: block_to_path c.v b →
    c'.val s = c.val s ∧ c'.v.inUse (c.val s) = true

/-- A truncation keeps every block in front of the end of file. -/
def KeepsData (c : Ctx) : Prop :=
  ∀ b, b < first_cut_block c.v c.inode.i_size → b < c.v.sbi.s_nblocks →
    DataKept c (gas_truncate_inode c) b

/-- A block that is mapped as before is kept with all that leads to it. -/
theorem DataKept.of_val {c : Ctx} (hc : TreeOk c) {b : Nat} (hlt : b < c.v.sbi.s_nblocks)
    (hv : (gas_truncate_inode c).val (block_to_path c.v b) = c.val (block_to_path c.v b)) :
    DataKept c (gas_truncate_inode c) b where
  val := hv
  used hne s hs hpre := by
    obtain ⟨Z, hcut, -⟩ := gas_truncate_inode_is_cut hc
    have hnil : block_to_path c.v b ≠ [] := fun he =>
      absurd ((block_to_path_eq_nil_iff hc.geometry.toGeometry).mp he) (by omega)
    have hleaf := block_to_path_isLeaf hc.geometry hnil
    have hpath : shape.IsPath s := by
      obtain ⟨r, hr⟩ := hpre
      rw [← hr] at hleaf
      exact Shape.IsPath.left hs hleaf.1
    -- nothing that leads to a pointer still set was cut
    have hkept : ¬Through Z s := fun ht =>
      (hcut.val_of_ne hleaf.1 (hv ▸ hne)).1 (ht.extend hpre)
    have hsame := hcut.val_of_not hpath hkept
    have hset : c.val s ≠ 0 := fun hz => hne (val_null_below hs hz hpre)
    refine ⟨hsame, ?_⟩
    rw [← hsame]
    exact (hcut.treeOk hc).used s hpath (hsame ▸ hset)

/-! ## 2. The condition

A level of the path where the read fails, and the logical blocks whose paths go through it. -/

/-- What lies below the block that could not be read is cut off: its path goes through the slot
whose pointer `find_shared` has taken out. -/
theorem truncate_loses {c : Ctx} (hc : TreeOk c) {m : Nat}
    (hm : FailsAt (block_truncate_page c) (cut_path c) m) {b : Nat} (hlt : b < c.v.sbi.s_nblocks)
    (hpre : (cut_path c).take m <+: block_to_path c.v b) :
    (gas_truncate_inode c).val (block_to_path c.v b) = 0 := by
  have hne : cut_path c ≠ [] := by
    intro he
    have hlt' := hm.2.1
    rw [he] at hlt'
    exact Nat.not_lt_zero m hlt'
  have hnil : block_to_path c.v b ≠ [] := fun he =>
    absurd ((block_to_path_eq_nil_iff hc.geometry.toGeometry).mp he) (by omega)
  obtain ⟨T, hT, hcut, -, habove⟩ := gas_truncate_inode_cut hc hne
  have hthrough : Through (CutAt (cut_path c) T) (block_to_path c.v b) :=
    ⟨_, (List.take_prefix_take_left (habove m hm)).trans hpre, Or.inl rfl⟩
  exact hcut.val_of_through (block_to_path_isLeaf hc.geometry hnil).1 hthrough

/-- **A truncation keeps the data in front of the end of file exactly when** the first block that
`find_shared` fails to read, if there is one, leads to no mapped block that stays.  In one direction
`truncate_loses`; in the other the cut is at slots to the right of the path. -/
theorem truncate_keeps_data_iff {c : Ctx} (hc : TreeOk c) :
    KeepsData c ↔ ∀ m, FailsAt (block_truncate_page c) (cut_path c) m →
      ∀ b, b < first_cut_block c.v c.inode.i_size → b < c.v.sbi.s_nblocks →
        (cut_path c).take m <+: block_to_path c.v b → c.val (block_to_path c.v b) = 0 := by
  constructor
  · intro hkeep m hm b hb hlt hpre
    rw [← (hkeep b hb hlt).val]
    exact truncate_loses hc hm hlt hpre
  · intro hcond b hb hlt
    refine DataKept.of_val hc hlt ?_
    rcases truncate_keeps_or_fails hc hb hlt with hv | ⟨m, hm, hpre⟩
    · exact hv
    · -- a hole stays one
      rw [hcond m hm b hb hlt hpre]
      exact truncate_loses hc hm hlt hpre

/-! ## 3. A read that fails once

The smallest file on which it happens: one indirect block with one pointer. -/

/-- The volume of 256 blocks with an indirect block 4 that holds the pointer 5; the read number
`bad` fails. -/
def torn_vol (bad : Nat) : Vol :=
  { plain_vol with
    words := fun b i => if b = 4 ∧ i = 0 then 5 else 0
    env := { plain_vol.env with bread := fun n => n != bad } }

/-- A file of seven blocks on it, of which the last is mapped, cut to `size`. -/
def torn_file (bad size : Nat) : Ctx where
  v := torn_vol bad
  inode := { small_inode 3 S_IFREG 1 (fun i => if i = 6 then 4 else 0) with i_size := size }
  nr := 0

theorem torn_val (bad size : Nat) {q : List Nat} (hq : shape.IsPath q) :
    (torn_file bad size).val q = if q = [6] then 4 else if q = [6, 0] then 5 else 0 :=
  small_val (fun j => by simp [torn_file, torn_vol]) hq

theorem torn_ok (bad size : Nat) : TreeOk (torn_file bad size) where
  geometry := ⟨{ plain_geometry.toGeometry with }, plain_geometry.nblocks_le⟩
  padded := plain_padded
  one q q' hq hq' hne he := by
    rw [← Ctx.val, torn_val _ _ hq] at hne he
    rw [← Ctx.val, torn_val _ _ hq'] at he
    split_ifs at hne he with h1 h2 h3 h4 h5 h6 <;> simp_all
  zone q hq hne := by
    rw [torn_val _ _ hq] at hne ⊢
    show 4 ≤ _ ∧ _ < 256
    split_ifs at hne ⊢ <;> omega
  used q hq hne := by
    rw [torn_val _ _ hq] at hne ⊢
    split_ifs at hne ⊢
    · rfl
    · rfl
    · exact absurd rfl hne

theorem torn_size (bad size : Nat) : (torn_file bad size).inode.i_size = size := rfl

theorem torn_cut_path (bad : Nat) : cut_path (torn_file bad 28672) = [6, 1] := by
  have hfirst : first_cut_block (torn_file bad 28672).v (torn_file bad 28672).inode.i_size = 7 := by
    rw [first_cut_block, torn_size, (torn_ok bad 28672).geometry.blocksize,
      (torn_ok bad 28672).geometry.blocksize_bits]
    rfl
  rw [cut_path, hfirst]
  rfl

theorem torn_page (bad : Nat) : block_truncate_page (torn_file bad 28672) = torn_file bad 28672 := by
  have hwhole : (torn_file bad 28672).inode.i_size % (torn_file bad 28672).v.sbi.s_blocksize = 0 := by
    rw [torn_size, (torn_ok bad 28672).geometry.blocksize]
  rw [block_truncate_page]
  dsimp only
  rw [if_pos hwhole]

/-- With the second request failing, the seventh block stays. -/
theorem torn_keeps : DataKept (torn_file 1 28672) (gas_truncate_inode (torn_file 1 28672)) 6 := by
  refine (truncate_keeps_data_iff (torn_ok 1 28672)).mpr (fun m hm => ?_) 6 (by decide) (by decide)
  rw [torn_cut_path, torn_page] at hm
  obtain ⟨hm1, hm2, -, -, hread⟩ := hm
  have hdepth : shared_depth [6, 1] [6, 1].length = 2 := rfl
  obtain rfl : m = 1 := by omega
  exact absurd hread (by decide)

/-- **Kept data is lost**: the read of the indirect block fails once, and the block in front of the end
of file is cut off with it. -/
theorem torn_loses : TreeOk (torn_file 0 28672) ∧ ¬KeepsData (torn_file 0 28672) := by
  refine ⟨torn_ok 0 28672, fun hkeep => ?_⟩
  have hok := torn_ok 0 28672
  have hpath : block_to_path (torn_file 0 28672).v 6 = [6, 0] := rfl
  have h6 : shape.IsPath [6] := isPath_cons.mpr ⟨by omega, by simp, by simp⟩
  have h60 : shape.IsPath [6, 0] := isPath_cons.mpr ⟨by omega, by simp, by simp⟩
  have hfail : FailsAt (block_truncate_page (torn_file 0 28672)) (cut_path (torn_file 0 28672)) 1 := by
    rw [torn_page, torn_cut_path]
    refine ⟨by omega, by decide, ?_, fun i hi => absurd hi (by omega), rfl⟩
    show (torn_file 0 28672).val [6] ≠ 0
    rw [torn_val _ _ h6]
    decide
  have hlost := truncate_loses hok hfail (b := 6) (by decide) (by rw [torn_cut_path]; exact ⟨[0], rfl⟩)
  rw [(hkeep 6 (by decide) (by decide)).val] at hlost
  have hset : (torn_file 0 28672).val [6, 0] = 0 := hlost
  rw [torn_val _ _ h60] at hset
  exact absurd hset (by decide)

end GasFs
