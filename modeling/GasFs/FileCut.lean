/-
# Truncation of the finite map

Truncating a file restricts its finite map (`FileMap.lean`) to the blocks in front of the end of
file.  `truncate_exact` says so together with the books: the block map loses exactly the data blocks
behind the end and the indirect blocks the inode no longer reaches, and the log of
`Itree/FreeLog.lean` lists each of them once.

`block_to_path` refuses blocks from `s_nblocks` on, so a tree that `gas_get_block` built has no
pointer in the slots of such blocks (`Addressed`).  A truncation would remove pointers there too,
but it could not say which blocks of the file they were.

The statement is about logical blocks, so it needs that every pointer is that of some logical block.
A data slot has a number only if that number is below `s_nblocks`; this is what `Addressed` says,
and every tree that was built from nothing by `gas_get_block` and cut by truncations has it
(`Addressed.get_block`, `Addressed.truncate`).

An indirect block goes when no slot below it is left.  Which ones these are follows from the tree
afterwards, so it is not described by a formula but by what is still reached.
-/
import GasFs.FileMap
import GasFs.Itree.FreeLog

namespace GasFs

open PtrTree

/-! ## 1. Trees that `gas_get_block` builds

The invariant of a tree over its life. -/

/-- Every data slot in use is the slot of a block that `block_to_path` accepts. -/
def Addressed (c : Ctx) : Prop :=
  ∀ q, IsLeaf q → c.val q ≠ 0 → ∃ block : Nat, block < c.v.sbi.s_nblocks ∧
    q = block_to_path c.v block

theorem Addressed.of_sub {c c' : Ctx} (h : Addressed c) (hv : BlockStep c.v c'.v)
    (hsub : ∀ q, IsLeaf q → c'.val q ≠ 0 → c.val q ≠ 0 ∨
      ∃ block : Nat, block < c.v.sbi.s_nblocks ∧ q = block_to_path c.v block) : Addressed c' := by
  intro q hq hne
  obtain ⟨block, hlt, he⟩ := (hsub q hq hne).elim (h q hq) id
  exact ⟨block, by rw [hv.sbi]; exact hlt, by rw [block_to_path_step hv]; exact he⟩

/-- **`gas_get_block` builds addressed trees.** -/
theorem Addressed.get_block {c : Ctx} (h : Addressed c) (hc : TreeOk c) (block : Nat)
    (create : Bool) : Addressed (gas_get_block c block create).c := by
  cases create with
  | false =>
    have ht := (gas_get_block_lookup c block).1
    exact h.of_sub ht.blockStep fun q _ hne => Or.inl (by rwa [ht.val] at hne)
  | true =>
    obtain ⟨hcr, hnil⟩ := gas_get_block_create hc block
    cases hcr with
    | failed hs _ _ => exact h.of_sub hs.vol fun q hq hne => Or.inl (by rwa [hs.val hc hq.1] at hne)
    | found hs _ _ _ => exact h.of_sub hs.vol fun q hq hne => Or.inl (by rwa [hs.val hc hq.1] at hne)
    | grafted m nb hg _ he =>
      have hpath : block_to_path c.v block ≠ [] := fun hp => hnil hp he
      have hleaf := block_to_path_isLeaf hc.geometry hpath
      refine h.of_sub hg.vol fun q hq hne => ?_
      rcases hg.val_cases hq.1 with ⟨hv, -⟩ | ⟨hpre, -⟩
      · exact Or.inl (hv ▸ hne)
      · refine Or.inr ⟨block, ?_, isLeaf_prefix_eq hleaf hq hpre⟩
        by_contra hge
        exact hpath ((block_to_path_eq_nil_iff hc.geometry.toGeometry).mpr (by omega))

/-- So does a truncation. -/
theorem Addressed.truncate {c : Ctx} (h : Addressed c) (hc : TreeOk c) :
    Addressed (gas_truncate_inode c) := by
  obtain ⟨Z, hcut, -⟩ := gas_truncate_inode_is_cut hc
  exact h.of_sub hcut.vol fun q hq hne => Or.inl (by rw [← (hcut.val_of_ne hq.1 hne).2]; exact hne)

/-! ## 2. What a truncation frees

Blocks marked before and clear afterwards. -/

section
variable {c : Ctx}

/-- A data block leaves the tree exactly when it lies behind the end of file.  Both halves hold only
while buffers can be read. -/
theorem truncate_val (hc : TreeOk c) (hio : ∀ n, c.v.env.bread n = true) {block : Nat}
    (hlt : block < c.v.sbi.s_nblocks) :
    (gas_truncate_inode c).val (block_to_path c.v block) =
      if block < first_cut_block c.v c.inode.i_size then c.val (block_to_path c.v block) else 0 := by
  by_cases hb : block < first_cut_block c.v c.inode.i_size
  · rw [if_pos hb]
    exact truncate_keeps hc hio hb hlt
  · rw [if_neg hb]
    exact truncate_clears hc (by omega) hlt

/-- **The blocks freed** are the data blocks behind the end of file and the indirect blocks that are
no longer in the tree.  A block in use that the tree does not hold is not touched. -/
theorem truncate_freed_iff (hc : TreeOk c) (hio : ∀ n, c.v.env.bread n = true) (ha : Addressed c)
    (b : Nat) :
    (c.v.inUse b = true ∧ (gas_truncate_inode c).v.inUse b = false) ↔
      (∃ block : Nat, first_cut_block c.v c.inode.i_size ≤ block ∧ block < c.v.sbi.s_nblocks ∧
        c.val (block_to_path c.v block) = b ∧ b ≠ 0) ∨
      (∃ q, shape.IsPath q ∧ ¬IsLeaf q ∧ c.val q = b ∧ b ≠ 0 ∧ ¬Holds (gas_truncate_inode c) b) := by
  obtain ⟨Z, hcut, -⟩ := gas_truncate_inode_is_cut hc
  have hok := hcut.treeOk hc
  -- a pointer that is gone was freed
  have hgone : ∀ q, shape.IsPath q → c.val q ≠ 0 → (gas_truncate_inode c).val q ≠ c.val q →
      c.v.inUse (c.val q) = true ∧ (gas_truncate_inode c).v.inUse (c.val q) = false := by
    intro q hq hne hv
    refine ⟨hc.used q hq hne, hcut.exact hio q hq ?_ hne⟩
    by_contra ht
    exact hv (hcut.val_of_not hq ht)
  constructor
  · rintro ⟨hu, hu'⟩
    obtain ⟨q, hq, ht, hne, rfl⟩ : ∃ q, shape.IsPath q ∧ Through Z q ∧ c.val q ≠ 0 ∧ c.val q = b := by
      by_contra hno
      rw [hcut.marks b fun q hq ht hne he => hno ⟨q, hq, ht, hne, he⟩, hu] at hu'
      exact Bool.false_ne_true hu'.symm
    by_cases hleaf : IsLeaf q
    · obtain ⟨block, hlt, rfl⟩ := ha q hleaf hne
      refine Or.inl ⟨block, ?_, hlt, rfl, hne⟩
      by_contra hb
      have hv := truncate_val hc hio hlt
      rw [if_pos (by omega), hcut.val_of_through hq ht] at hv
      exact hne hv.symm
    · refine Or.inr ⟨q, hq, hleaf, rfl, hne, fun hh => ?_⟩
      rw [hh.used hok] at hu'
      exact Bool.false_ne_true hu'.symm
  · rintro (⟨block, hb, hlt, rfl, hne⟩ | ⟨q, hq, -, rfl, hne, hh⟩)
    · refine hgone _ (block_path_isLeaf hc hlt).1 hne fun he => hne ?_
      rw [← he, truncate_val hc hio hlt, if_neg (by omega)]
    · exact hgone q hq hne fun he => hh ⟨hne, q, hq, he⟩

end

/-! ## 3. The main result

For an inode of a file system, with the log and with the other inodes. -/

variable {K : Type} [DecidableEq K]

/-- **Truncation is exact.**  The blocks in front of the end of file stay mapped as they were and
all others are unmapped; the calls of `gas_free_block` free the data blocks behind the end and the
indirect blocks no longer reached, each once, and nothing else; no other inode's tree changes. -/
theorem truncate_exact {d : Fs K} {k : K} {i : Inode} (h : d.Sound) (hk : d.inodes k = some i)
    (hb : has_blocks i.i_mode = true) (hio : ∀ n, d.vol.env.bread n = true)
    (ha : Addressed ⟨d.vol, i, 0⟩) :
    let s := gas_truncate_inode_logged ⟨⟨d.vol, i, 0⟩, []⟩
    let d' := d.set k s.c
    let n := (i.i_size + 4095) / 4096
    s.c = gas_truncate_inode ⟨d.vol, i, 0⟩ ∧
      (∀ block < d.vol.sbi.s_nblocks,
        d'.mapped k block = if block < n then d.mapped k block else none) ∧
      s.log.Nodup ∧
      (∀ b, d'.vol.inUse b = true ↔ d.vol.inUse b = true ∧ b ∉ s.log) ∧
      (∀ b, b ∈ s.log ↔
        (∃ block, n ≤ block ∧ block < d.vol.sbi.s_nblocks ∧ d.mapped k block = some b) ∨
        ∃ q, shape.IsPath q ∧ ¬IsLeaf q ∧ d.slot k q = b ∧ b ≠ 0 ∧
          ∀ q', shape.IsPath q' → d'.slot k q' ≠ b) ∧
      ∀ k' q, k' ≠ k → shape.IsPath q → d'.slot k' q = d.slot k' q := by
  have hc := h.treeOk hk hb
  have herase := gas_truncate_inode_logged_erase ⟨⟨d.vol, i, 0⟩, []⟩
  have hown := gas_truncate_inode_ownStep hc
  obtain ⟨l, hlog, hnd, hused, hmarks⟩ := gas_truncate_inode_logged_writes
    (s := ⟨⟨d.vol, i, 0⟩, []⟩) hc
  rw [List.nil_append] at hlog
  have hn : first_cut_block d.vol i.i_size = (i.i_size + 4095) / 4096 := by
    rw [first_cut_block, h.geometry.blocksize, h.geometry.blocksize_bits]
    rfl
  have hval : ∀ block, block < d.vol.sbi.s_nblocks → _ := fun block hlt =>
    truncate_val (c := ⟨d.vol, i, 0⟩) hc hio hlt
  have hfreed := truncate_freed_iff hc hio ha
  dsimp only at herase hval hfreed ⊢
  rw [hn] at hval hfreed
  rw [hlog]
  generalize gas_truncate_inode_logged ⟨⟨d.vol, i, 0⟩, []⟩ = s at herase hmarks ⊢
  obtain ⟨c', log⟩ := s
  dsimp only at herase hmarks ⊢
  rw [← herase] at hval hfreed hown
  have hslot : ∀ q, (d.set k c').slot k q = c'.val q := fun q =>
    Fs.slot_of_blocks (by simp [Fs.set]) (by rw [hown.mode]; exact hb) q
  have hslot0 := d.slot_of_blocks hk hb
  have hmap : ∀ block b, d.mapped k block = some b ↔
      Ctx.val ⟨d.vol, i, 0⟩ (block_to_path d.vol block) = b ∧ b ≠ 0 := by
    intro block b
    rw [Fs.mapped, hslot0]
    by_cases hz : Ctx.val ⟨d.vol, i, 0⟩ (block_to_path d.vol block) = 0
    · rw [if_pos hz, hz]
      exact iff_of_false (by simp) fun he => he.2 he.1.symm
    · rw [if_neg hz, Option.some.injEq]
      exact ⟨fun he => ⟨he, he ▸ hz⟩, fun he => he.1⟩
  refine ⟨herase, fun block hlt => ?_, hnd, hmarks, fun b => ?_, fun k' q hne hq =>
    h.others hk hb hown hne hq⟩
  · rw [Fs.mapped, Fs.mapped, show (d.set k c').vol = c'.v from rfl, block_to_path_step hown.vol,
      hslot, hval block hlt, hslot0]
    split
    · rfl
    · rfl
  · have hmem : b ∈ l ↔ d.vol.inUse b = true ∧ c'.v.inUse b = false := by
      have hm := hmarks b
      constructor
      · intro hbl
        refine ⟨hused b hbl, ?_⟩
        rw [Bool.eq_false_iff]
        exact fun hu => (hm.mp hu).2 hbl
      · rintro ⟨hu, hu'⟩
        by_contra hbl
        rw [hm.mpr ⟨hu, hbl⟩] at hu'
        exact Bool.false_ne_true hu'.symm
    rw [hmem]
    refine (hfreed b).trans (or_congr ?_ ?_)
    · refine exists_congr fun block => and_congr_right fun _ => and_congr_right fun _ => ?_
      exact (hmap block b).symm
    · refine exists_congr fun q => and_congr_right fun _ => and_congr_right fun _ => ?_
      rw [hslot0]
      refine and_congr_right fun _ => and_congr_right fun hb0 => ?_
      simp only [hslot]
      constructor
      · exact fun hh q' hq' he => hh ⟨hb0, q', hq', he⟩
      · rintro hh ⟨-, q', hq', he⟩
        exact hh q' hq' he

theorem deep_addressed : Addressed ⟨room_vol, deep_inode, 0⟩ := by
  intro q hq hne
  rw [deep_val rfl hq.1] at hne
  split_ifs at hne with h0 h6 h60 h61
  · exact ⟨0, by decide, h0⟩
  · subst h6
    exact absurd hq.2 (by decide)
  · exact ⟨6, by decide, h60⟩
  · exact ⟨7, by decide, h61⟩
  · exact absurd rfl hne

/-- A cut through an indirect block: the size of the file leaves its block 6 and cuts block 7, which
is the second of the indirect block. -/
theorem deep_truncated : let s := gas_truncate_inode_logged ⟨⟨room_fs.vol, deep_inode, 0⟩, []⟩
    (room_fs.set true s.c).mapped true 6 = some 7 ∧ (room_fs.set true s.c).mapped true 7 = none ∧
      8 ∈ s.log ∧ s.log.Nodup ∧ (room_fs.set true s.c).slot false [0] = 5 := by
  obtain ⟨-, hmap, hnd, -, hlog, hothers⟩ := truncate_exact (d := room_fs) (k := true) (i := deep_inode)
    room_sound rfl (by decide) (fun _ => rfl) deep_addressed
  intro s
  have h6 : (room_fs.set true s.c).mapped true 6 = some 7 := by
    rw [hmap 6 (by decide), if_pos (by decide)]
    rfl
  have h7 : (room_fs.set true s.c).mapped true 7 = none := by
    rw [hmap 7 (by decide), if_neg (by decide)]
  have h8 : 8 ∈ s.log := (hlog 8).mpr (Or.inl ⟨7, by decide, by decide, rfl⟩)
  have h0 : (room_fs.set true s.c).slot false [0] = 5 :=
    (hothers false [0] (by decide) (isPath_cons.mpr ⟨by omega, by simp, by simp⟩)).trans
      (room_slot false (isPath_cons.mpr ⟨by omega, by simp, by simp⟩))
  exact ⟨h6, h7, h8, hnd, h0⟩

end GasFs
