/-
# What the tree functions do to the block map

Every function that changes a block tree is a step of its owner in the sense of
`Lib/Ledger.lean`: it gives up blocks it holds, takes blocks that are free, and leaves all other
blocks in use alone, their contents included.  `OwnStep` says so on a `Ctx`.  Cuts, grafts and
writes into data blocks are such steps, and so are `gas_get_block`, `gas_truncate_inode` and the
freeing part of `gas_evict_inode`.

An owner's step is defined by its effect on others.  Blocks in use that the tree does not hold keep
their words and their marks; blocks the tree holds afterwards it held before, or they were free.
That the tree is sound afterwards is part of the step, so steps compose without further conditions.

`Isolation.lean` and `Accounts.lean` use nothing else about the functions on the tree.
-/
import GasFs.Itree.Truncate
import GasFs.Itree.Alloc
import GasFs.Lib.Ledger

namespace GasFs

open PtrTree

/-- Some slot of the tree holds the block.  Indirect blocks are held as well as data blocks. -/
def Holds (c : Ctx) (b : Nat) : Prop := b ≠ 0 ∧ ∃ q, shape.IsPath q ∧ c.val q = b

theorem Holds.used {c : Ctx} (hc : TreeOk c) {b : Nat} (h : Holds c b) : c.v.inUse b = true := by
  obtain ⟨hne, q, hq, rfl⟩ := h
  exact hc.used q hq hne

theorem Holds.zone {c : Ctx} (hc : TreeOk c) {b : Nat} (h : Holds c b) : c.v.InZone b := by
  obtain ⟨hne, q, hq, rfl⟩ := h
  exact hc.zone q hq hne

/-- A step of the owner of a tree: what it changes of the volume, of the inode, and what it leaves
of the blocks of others.  What others see of it is that some free blocks are in use afterwards, or
the other way round. -/
structure OwnStep (c c' : Ctx) : Prop where
  vol : BlockStep c.v c'.v
  mode : c'.inode.i_mode = c.inode.i_mode
  ino : c'.inode.i_ino = c.inode.i_ino
  ok : TreeOk c'
  fresh : ∀ b, Holds c' b → Holds c b ∨ c.v.inUse b = false
  keep : ∀ b, c.v.inUse b = true → ¬Holds c b →
    c'.v.inUse b = true ∧ c'.v.words b = c.v.words b
  exact : (∀ n, c.v.env.bread n = true) → ∀ b, c'.v.inUse b = true →
    Holds c' b ∨ c.v.inUse b = true ∧ ¬Holds c b

theorem InodeStep.mode {i i' : Inode} (h : InodeStep i i') : i'.i_mode = i.i_mode := by
  obtain ⟨_, _, _, _, rfl⟩ := h; rfl

theorem InodeStep.ino {i i' : Inode} (h : InodeStep i i') : i'.i_ino = i.i_ino := by
  obtain ⟨_, _, _, _, rfl⟩ := h; rfl

theorem InodeStep.nlink {i i' : Inode} (h : InodeStep i i') : i'.i_nlink = i.i_nlink := by
  obtain ⟨_, _, _, _, rfl⟩ := h; rfl

theorem InodeStep.size {i i' : Inode} (h : InodeStep i i') : i'.i_size = i.i_size := by
  obtain ⟨_, _, _, _, rfl⟩ := h; rfl

variable {c c' : Ctx}

/-! ## 1. Cuts, grafts and calls without effect

The three things that happen to a tree. -/

/-- Equal slots, and the bits of the tree and of everything outside the data zone are still set: the
tree is as sound as before. -/
theorem TreeOk.of_same (hc : TreeOk c) (hv : BlockStep c.v c'.v)
    (hval : ∀ q, shape.IsPath q → c'.val q = c.val q)
    (hpad : ∀ b, ¬c.v.InZone b → c.v.inUse b = true → c'.v.inUse b = true)
    (hused : ∀ b, Holds c b → c'.v.inUse b = true) : TreeOk c' := by
  refine ⟨⟨hv.geometry hc.geometry.toGeometry, ?_⟩, fun b hb hz => ?_,
    hc.one.of_sub fun q hq => Or.inl (hval q hq), fun q hq hne => ?_, fun q hq hne => ?_⟩
  · rw [hv.sbi]
    exact hc.geometry.nblocks_le
  · rw [hv.sbi] at hb
    rw [hv.inZone] at hz
    exact hpad b hz (hc.padded b hb hz)
  · rw [hval q hq] at hne ⊢
    exact (hv.inZone _).mpr (hc.zone q hq hne)
  · rw [hval q hq] at hne ⊢
    exact hused _ ⟨hne, q, hq, rfl⟩

theorem Cut.ownStep {Z : List Nat → Prop} (hc : TreeOk c) (h : Cut Z c c') : OwnStep c c' where
  vol := h.vol
  mode := h.inode.mode
  ino := h.inode.ino
  ok := h.treeOk hc
  fresh := by
    rintro b ⟨hb, q, hq, rfl⟩
    have he := (h.val_of_ne hq hb).2
    exact Or.inl ⟨hb, q, hq, he.symm⟩
  keep b hb hn := by
    refine ⟨?_, h.words b fun q hq hne he => hn ⟨he ▸ hne, q, hq, he⟩⟩
    rw [h.marks b fun q hq _ hne he => hn ⟨he ▸ hne, q, hq, he⟩]
    exact hb
  exact hio b hb := by
    by_cases hh : Holds c b
    · obtain ⟨hne, q, hq, rfl⟩ := hh
      have hnt : ¬Through Z q := fun ht => by
        rw [h.exact hio q hq ht hne] at hb
        exact Bool.false_ne_true hb
      exact Or.inl ⟨hne, q, hq, h.val_of_not hq hnt⟩
    · exact Or.inr ⟨h.mono b hb, hh⟩

theorem Same.ownStep (hc : TreeOk c) (h : Same c c') : OwnStep c c' where
  vol := h.vol
  mode := by rw [h.inode]
  ino := by rw [h.inode]
  ok := hc.of_same h.vol (fun _ => h.val hc) (fun b _ hu => by rw [h.marks]; exact hu)
    fun b hb => by rw [h.marks]; exact hb.used hc
  fresh := by
    rintro b ⟨hb, q, hq, rfl⟩
    exact Or.inl ⟨hb, q, hq, (h.val hc hq).symm⟩
  keep b hb _ := ⟨by rw [h.marks]; exact hb, h.words b hb⟩
  exact _ b hb := by
    rw [h.marks] at hb
    by_cases hh : Holds c b
    · obtain ⟨hne, q, hq, rfl⟩ := hh
      exact Or.inl ⟨hne, q, hq, h.val hc hq⟩
    · exact Or.inr ⟨hb, hh⟩

theorem Graft.ownStep {o : List Nat} {m : Nat} {nb : List Nat} (hc : TreeOk c) (ho : IsLeaf o)
    (h : Graft o m nb c c') : OwnStep c c' where
  vol := h.vol
  mode := by obtain ⟨_, _, he⟩ := h.inode; rw [he]
  ino := by obtain ⟨_, _, he⟩ := h.inode; rw [he]
  ok := h.treeOk hc
  fresh := by
    rintro b ⟨hb, q, hq, rfl⟩
    rcases h.val_cases hq with ⟨h1, -⟩ | ⟨-, -, -, h1⟩
    · exact Or.inl ⟨hb, q, hq, h1.symm⟩
    · exact Or.inr (h.fresh _ (List.mem_of_getElem? h1)).2
  keep b hb hn := by
    refine ⟨(h.marks b).mpr (Or.inr hb), h.words b ?_ fun q hq hne he => hn ⟨he ▸ hne, q, hq, he⟩⟩
    intro hin
    rw [(h.fresh b hin).2] at hb
    exact Bool.false_ne_true hb
  exact _ b hb := by
    rcases (h.marks b).mp hb with hin | hu
    · obtain ⟨q, hq, he⟩ := h.held ho hin
      have h1 := (h.fresh b hin).1.1
      have h2 := hc.geometry.data_pos
      exact Or.inl ⟨by omega, q, hq, he⟩
    · by_cases hh : Holds c b
      · obtain ⟨hne, q, hq, rfl⟩ := hh
        exact Or.inl ⟨hne, q, hq, h.val_of_ne ho.1 hq hne⟩
      · exact Or.inr ⟨hu, hh⟩

/-! ## 2. The functions

Each is one of the three, by the theorem that describes it. -/

/-- **`gas_get_block`, with or without `create`, is a step of the owner**, if it fails too. -/
theorem gas_get_block_ownStep (hc : TreeOk c) (block : Nat) (create : Bool) :
    OwnStep c (gas_get_block c block create).c := by
  cases create with
  | false => exact (gas_get_block_lookup c block).1.same.ownStep hc
  | true =>
    obtain ⟨hcr, hnil⟩ := gas_get_block_create hc block
    cases hcr with
    | failed hs _ _ => exact hs.ownStep hc
    | found hs _ _ _ => exact hs.ownStep hc
    | grafted m nb hg _ he =>
      exact hg.ownStep hc (block_to_path_isLeaf hc.geometry fun h => hnil h he)

theorem gas_truncate_inode_ownStep (hc : TreeOk c) : OwnStep c (gas_truncate_inode c) := by
  obtain ⟨Z, h, -⟩ := gas_truncate_inode_is_cut hc
  exact h.ownStep hc

/-- The tree functions read nothing of an inode but the pointers and the size.  So the rest of the
inode may change between two steps. -/
theorem TreeOk.withInode (hc : TreeOk c) {i : Inode} (hi : i.blkaddr = c.inode.blkaddr) :
    TreeOk { c with inode := i } where
  geometry := hc.geometry
  padded := hc.padded
  one := by rw [show ({ c with inode := i } : Ctx).inode.blkaddr = c.inode.blkaddr from hi]; exact hc.one
  zone := by
    have : ({ c with inode := i } : Ctx).val = c.val := by funext q; simp only [Ctx.val, hi]
    rw [this]; exact hc.zone
  used := by
    have : ({ c with inode := i } : Ctx).val = c.val := by funext q; simp only [Ctx.val, hi]
    rw [this]; exact hc.used

theorem holds_withInode {i : Inode} (hi : i.blkaddr = c.inode.blkaddr) (b : Nat) :
    Holds { c with inode := i } b ↔ Holds c b := by
  have : ({ c with inode := i } : Ctx).val = c.val := by funext q; simp only [Ctx.val, hi]
  simp only [Holds, this]

/-- The owner may have been given another size first. -/
theorem OwnStep.of_withInode {i : Inode} (h : OwnStep { c with inode := i } c')
    (hb : i.blkaddr = c.inode.blkaddr) (hm : i.i_mode = c.inode.i_mode)
    (hi : i.i_ino = c.inode.i_ino) : OwnStep c c' where
  vol := h.vol
  mode := h.mode.trans hm
  ino := h.ino.trans hi
  ok := h.ok
  fresh b hb' := (h.fresh b hb').imp_left (holds_withInode hb b).mp
  keep b hb' hn := h.keep b hb' fun hh => hn ((holds_withInode hb b).mp hh)
  exact hio b hb' := (h.exact hio b hb').imp_right fun ⟨h1, h2⟩ =>
    ⟨h1, fun hh => h2 ((holds_withInode hb b).mpr hh)⟩

/-- The owner does nothing. -/
theorem OwnStep.refl (hc : TreeOk c) : OwnStep c c :=
  (Ticked.refl c).same.ownStep hc

/-- One step after the other. -/
theorem OwnStep.trans {c'' : Ctx} (h : OwnStep c c') (h' : OwnStep c' c'') : OwnStep c c'' where
  vol := h.vol.trans h'.vol
  mode := h'.mode.trans h.mode
  ino := h'.ino.trans h.ino
  ok := h'.ok
  fresh b hb := by
    by_cases hu : c.v.inUse b = true
    · by_cases hh : Holds c b
      · exact Or.inl hh
      · -- what others have is still marked after the first step, and not the owner's
        have hk := (h.keep b hu hh).1
        rcases h'.fresh b hb with h1 | h1
        · exact h.fresh b h1
        · exact absurd (hk.symm.trans h1) (by simp)
    · exact Or.inr (by simpa using hu)
  keep b hb hn := by
    obtain ⟨h1, h2⟩ := h.keep b hb hn
    have hn' : ¬Holds c' b := fun hh => by
      rcases h.fresh b hh with h3 | h3
      · exact hn h3
      · exact absurd (hb.symm.trans h3) (by simp)
    obtain ⟨h3, h4⟩ := h'.keep b h1 hn'
    exact ⟨h3, h4.trans h2⟩
  exact hio b hb := by
    rcases h'.exact (fun n => by rw [h.vol.env]; exact hio n) b hb with h1 | ⟨h1, h2⟩
    · exact Or.inl h1
    · exact Or.inr ((h.exact hio b h1).resolve_left h2)

/-- The owner's inode is changed, but not its pointers. -/
theorem OwnStep.withInode {i : Inode} (h : OwnStep c c') (hb : i.blkaddr = c'.inode.blkaddr)
    (hm : i.i_mode = c'.inode.i_mode) (hi : i.i_ino = c'.inode.i_ino) :
    OwnStep c { c' with inode := i } where
  vol := h.vol
  mode := hm.trans h.mode
  ino := hi.trans h.ino
  ok := h.ok.withInode hb
  fresh b hb' := h.fresh b ((holds_withInode hb b).mp hb')
  keep := h.keep
  exact hio b hb' := (h.exact hio b hb').imp_left (holds_withInode hb b).mpr

/-- **A truncation to length 0 leaves no block in the tree.** Every path lies to the right of the
first one or is that one.  If a read fails on the way, blocks may stay marked, but the tree does not
hold them any more. -/
theorem truncate_zero_holds (hc : TreeOk c) (hs : c.inode.i_size = 0) (b : Nat) :
    ¬Holds (gas_truncate_inode c) b := by
  obtain ⟨Z, h, -⟩ := gas_truncate_inode_is_cut hc
  rintro ⟨hne, q, hq, he⟩
  rcases Nat.eq_zero_or_pos c.v.sbi.s_nblocks with h0 | hpos
  · have hz := (Holds.zone (h.treeOk hc) ⟨hne, q, hq, he⟩).2
    rw [h.vol.sbi] at hz
    omega
  · -- block 0 is the first to go, and every slot lies at it or to its right
    have hpath : cut_path c = [0] := by
      have hfirst : first_cut_block c.v c.inode.i_size = 0 := by
        rw [first_cut_block, hs, hc.geometry.blocksize, hc.geometry.blocksize_bits]
        rfl
      rw [cut_path, hfirst, block_to_path_eq hc.geometry.toGeometry, if_neg (by omega),
        if_pos (by omega)]
    obtain ⟨T, hT, hcut, -⟩ := gas_truncate_inode_cut hc (by rw [hpath]; simp)
    rw [hpath] at hT hcut
    refine hne (he.symm.trans (hcut.val_of_through hq (CutAt.of_rightOf hT ?_ |>.extend
      (show q.take 1 <+: q from List.take_prefix 1 q))))
    cases q with
    | nil => exact hq.elim
    | cons i r =>
      rcases Nat.eq_zero_or_pos i with rfl | hi
      · exact Or.inl rfl
      · exact Or.inr ⟨0, 0, i, rfl, rfl, hi, rfl⟩

end GasFs
