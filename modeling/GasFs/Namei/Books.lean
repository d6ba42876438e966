/-
# The block map behind the calls

`Accounts.lean` takes the operations on blocks one by one.  Here the calls are taken as the VFS makes
them: each of them, whether it succeeds or fails, is made of turns of one inode, of inodes that come
and go, and of changes of link counts and times, so it keeps the books (`Fs.Kept`).  No block gets two
holders, none that is held is marked free, and what is marked but held by no one (`Fs.lost`) stays as
it was as long as buffers can be read; when they cannot, it grows at most.  Nor does a call touch the data
of an inode that was in core before it (`Fs.KeptData`), unless it drops the last reference to it.

Nothing is asked of the directories but that they are in core: the books do not care what the records
say.

There are two kinds of facts about a call here, and they are shown together, piece by piece: that it
keeps the books, and that it keeps the data of a set `A` of inodes.  The second is stated with the
blocks and their words, so it covers what a reader of the file would see.  The set is a parameter
because the pieces differ in whom they leave alone: a turn that fills holes leaves everyone's data,
a write or a cut only those of the others.
-/
import GasFs.Isolation
import GasFs.Itree.Data
import GasFs.Namei.Rename
import GasFs.Namei.Run

namespace GasFs

open Bytes PtrTree

/-! ## 1. Turns of one inode

A function that works on one inode is a turn of it (`OwnStep`), or even one that only fills holes
(`FillStep`).  Turns compose, so a loop is a turn by induction on its rounds, and no function is
unfolded further than to the calls it makes. -/

section Turns

variable {c c' : Ctx}

/-- A request to the kernel. -/
theorem tick_fillStep (hc : TreeOk c) (tick : Nat) :
    FillStep c { c with v := { c.v with tick := tick } } :=
  (show Ticked c _ from ⟨tick, rfl⟩).fillStep hc

/-- It is one call of `gas_get_block`, and at most a read of the block behind it. -/
theorem begin_fillStep (hc : TreeOk c) (pos len : Nat) (uptodate : Bool) :
    FillStep c (__block_write_begin c pos len uptodate).1 := by
  have hget := gas_get_block_fillStep hc (pos / PAGE_CACHE_SIZE) true
  unfold __block_write_begin
  dsimp only
  split_ifs
  · exact hget
  · exact hget
  · unfold sb_bread
    cases (gas_get_block c (pos / PAGE_CACHE_SIZE) true).c.v.env.bread _ <;>
      exact hget.trans (tick_fillStep hget.ok _)

/-- A record written. -/
theorem got_it_fillStep (hc : TreeOk c) (n p : Nat) (name : List UInt8) (ino : Nat) :
    FillStep c (got_it c n p name ino).1 := by
  have hprep := begin_fillStep hc (PAGE_CACHE_SIZE * n + p) sizeof_gas_dir_entry true
  unfold got_it gas_dir_prepare_chunk
  dsimp only
  generalize __block_write_begin c (PAGE_CACHE_SIZE * n + p) sizeof_gas_dir_entry true = r at hprep
  obtain ⟨c1, _ | e⟩ := r
  · dsimp only
    rw [gas_dir_commit_chunk_eq]
    exact hprep.withInode rfl rfl rfl
  · exact hprep

/-- A search for a free record and the record written, over all pages. -/
theorem add_link_loop_fillStep (name : List UInt8) (ino : Nat) : ∀ (count n : Nat) {c : Ctx},
    TreeOk c → FillStep c (add_link_loop name ino count n c).1
  | 0, _, _, hc => FillStep.refl hc
  | count + 1, n, c, hc => by
    have htick := tick_fillStep hc (c.v.tick + 1)
    simp only [add_link_loop, gas_dir_get_page]
    cases c.v.env.pgread c.v.tick with
    | false => exact htick
    | true =>
      simp only [if_true]
      split
      · exact htick.trans (add_link_loop_fillStep name ino count (n + 1) htick.ok)
      · next p _ =>
        split_ifs
        · -- the record behind the end is cleared before it is written
          have hclear := htick.withInode (i := c.inode.setPage n (putLe32 · (p + GAS_MAX_NAME_LEN) 0))
            rfl rfl rfl
          exact hclear.trans (got_it_fillStep hclear.ok n p name ino)
        · exact htick.trans (got_it_fillStep htick.ok n p name ino)
        · exact htick

/-- **`gas_add_link` is a turn of the directory** that fills holes, whatever is in it. -/
theorem gas_add_link_fillStep (hc : TreeOk c) (name : List UInt8) (ino : Nat) :
    FillStep c (gas_add_link c name ino).1 := add_link_loop_fillStep name ino _ 0 hc

/-- **So is `gas_delete_entry`.** -/
theorem gas_delete_entry_fillStep (hc : TreeOk c) (n p : Nat) :
    FillStep c (gas_delete_entry c n p).1 := by
  have hprep := begin_fillStep hc (PAGE_CACHE_SIZE * n + p) sizeof_gas_dir_entry true
  unfold gas_delete_entry gas_dir_prepare_chunk
  dsimp only
  generalize __block_write_begin c (PAGE_CACHE_SIZE * n + p) sizeof_gas_dir_entry true = r at hprep
  obtain ⟨c1, _ | e⟩ := r
  · dsimp only
    rw [gas_dir_commit_chunk_eq]
    exact hprep.withInode rfl rfl rfl
  · exact hprep.withInode rfl rfl rfl

/-- **And `gas_set_link`**. -/
theorem gas_set_link_fillStep (hc : TreeOk c) (n p inode : Nat) :
    FillStep c (gas_set_link c n p inode) := by
  have hprep := begin_fillStep hc (PAGE_CACHE_SIZE * n + p) sizeof_gas_dir_entry true
  unfold gas_set_link gas_dir_prepare_chunk
  dsimp only
  generalize __block_write_begin c (PAGE_CACHE_SIZE * n + p) sizeof_gas_dir_entry true = r at hprep
  obtain ⟨c1, _ | e⟩ := r
  · dsimp only
    rw [gas_dir_commit_chunk_eq]
    exact hprep.withInode rfl rfl rfl
  · exact hprep.withInode rfl rfl rfl

/-- **And `gas_make_empty`** of the new directory. -/
theorem gas_make_empty_fillStep (hc : TreeOk c) (dir : Nat) : FillStep c (gas_make_empty c dir).1 := by
  have htick := tick_fillStep hc (c.v.tick + 1)
  have hbegin := begin_fillStep htick.ok 0 (2 * sizeof_gas_dir_entry) false
  unfold gas_make_empty
  dsimp only
  split_ifs
  · exact htick
  · generalize __block_write_begin { c with v := { c.v with tick := c.v.tick + 1 } } 0
      (2 * sizeof_gas_dir_entry) false = r at hbegin
    obtain ⟨c1, _ | e⟩ := r
    · dsimp only
      rw [gas_dir_commit_chunk_eq]
      exact (htick.trans hbegin).withInode rfl rfl rfl
    · exact htick.trans hbegin

/-- What a failed write leaves behind is cut off. -/
theorem gas_write_failed_ownStep (hc : TreeOk c) (to_ : Nat) : OwnStep c (gas_write_failed c to_) := by
  unfold gas_write_failed gas_truncate
  split_ifs
  · exact (gas_truncate_inode_ownStep (hc.withInode (i := truncate_pagecache c.inode c.inode.i_size)
      rfl)).of_withInode rfl rfl rfl
  · exact (OwnStep.refl hc).withInode rfl rfl rfl
  · exact OwnStep.refl hc

/-- The first half of a write may give up what it took. -/
theorem gas_write_begin_ownStep (hc : TreeOk c) (pos len : Nat) :
    OwnStep c (gas_write_begin c pos len).1 := by
  have htick := (tick_fillStep hc (c.v.tick + 1)).toOwnStep
  have hbegin : OwnStep c (block_write_begin c pos len).1 := by
    unfold block_write_begin
    dsimp only
    split_ifs
    · exact htick
    · exact htick.trans (begin_fillStep htick.ok pos len false).toOwnStep
  unfold gas_write_begin
  generalize block_write_begin c pos len = r at hbegin
  obtain ⟨c1, _ | e⟩ := r
  · exact hbegin
  · exact hbegin.trans (gas_write_failed_ownStep hbegin.ok _)

/-- So may the second, after a short copy. -/
theorem gas_write_end_ownStep (hc : TreeOk c) (pos len copied : Nat) (uptodate : Bool) :
    OwnStep c (gas_write_end c pos len copied uptodate).1 := by
  unfold gas_write_end
  dsimp only
  generalize (if copied < len ∧ uptodate = false then 0 else copied) = ret
  have hsize : OwnStep c (if c.inode.i_size < pos + ret then
      { c with inode := { c.inode with i_size := pos + ret } } else c) := by
    split_ifs
    · exact (OwnStep.refl hc).withInode rfl rfl rfl
    · exact OwnStep.refl hc
  generalize (if c.inode.i_size < pos + ret then
    { c with inode := { c.inode with i_size := pos + ret } } else c) = c1 at hsize
  split_ifs
  · exact hsize.trans (gas_write_failed_ownStep hsize.ok _)
  · exact hsize

/-- **A round of a write is a turn of the file.** The block it takes may be given back again, with
the cut of a write that failed. -/
theorem gas_write_ownStep (hc : TreeOk c) (pos len copied : Nat) (uptodate : Bool) :
    OwnStep c (gas_write c pos len copied uptodate) := by
  have hbegin := gas_write_begin_ownStep hc pos len
  unfold gas_write
  generalize gas_write_begin c pos len = r at hbegin
  obtain ⟨c1, _ | e⟩ := r
  · exact hbegin.trans (gas_write_end_ownStep hbegin.ok pos len copied uptodate)
  · exact hbegin

/-- The body of a symbolic link. -/
theorem page_symlink_ownStep (hc : TreeOk c) (symname : List UInt8) :
    OwnStep c (page_symlink c symname).1 := by
  have hbegin := gas_write_begin_ownStep hc 0 symname.length
  unfold page_symlink
  generalize gas_write_begin c 0 symname.length = r at hbegin
  obtain ⟨c1, _ | e⟩ := r
  · dsimp only
    generalize hi : c1.inode.setPage 0 (fun kaddr a =>
      if a < symname.length then symname.getD a 0 else kaddr a) = i
    have hpage : OwnStep c { c1 with inode := i } :=
      hbegin.withInode (by rw [← hi]; rfl) (by rw [← hi]; rfl) (by rw [← hi]; rfl)
    exact hpage.trans (gas_write_end_ownStep hpage.ok 0 _ _ false)
  · exact hbegin

end Turns

/-! ## 2. Books

The books are sound trees, exact marks of inode numbers, and a record for each inode in use.
`Fs.Kept` compares a state with a later one: what was lost stays lost, and nothing is lost anew
unless a buffer cannot be read.  Each piece of a call keeps the books; a call is a chain of pieces
by `Fs.Kept.trans`. -/

/-- The data blocks marked in use that no slot holds.  Four of them are lost from the start, those
behind the block of the root directory. -/
def Fs.lost {K : Type} (d : Fs K) : Set Nat := Ledger.lost d.held d.mark

/-- Sound books, and right numbers, each with a record.  The first says that the trees share no
block, the others that inodes and numbers fit together. -/
structure Fs.Books (d : Fs Nat) : Prop where
  sound : d.Sound
  numbered : d.Recorded
  numbers : d.NumbersOk

/-- The inode is in core. -/
def Fs.InCore (d : Fs Nat) (k : Nat) : Prop := ∃ i, d.inodes k = some i

/-- The number is marked in use, and no inode in core has it. -/
def Fs.Astray (d : Fs Nat) (k : Nat) : Prop := d.vol.inodeInUse k = true ∧ ¬d.InCore k

/-- What a call keeps of the books: it loses blocks only where buffers cannot be read, and finds
none again; numbers it does not lose at all.  `Fs.Kept` composes, so a call is compared with its
beginning although its steps are not. -/
structure Fs.Kept (d d' : Fs Nat) : Prop where
  books : d'.Books
  vol : SameVol d.vol d'.vol
  lost : d.lost ⊆ d'.lost
  exact : (∀ n, d.vol.env.bread n = true) → d'.lost = d.lost
  astray : ∀ k, d'.Astray k → d.Astray k

/-- Besides, what is in core stays there, and of its type. -/
structure Fs.Stays (d d' : Fs Nat) : Prop extends d.Kept d' where
  core : ∀ k i, d.inodes k = some i → ∃ i', d'.inodes k = some i' ∧ i'.i_mode = i.i_mode

/-- What is in the logical blocks of an inode.  A hole has no data, and neither has a block that is
not mapped yet. -/
def Fs.data (d : Fs Nat) (k n : Nat) : Option (Nat → Nat) := (d.mapped k n).map d.vol.words

/-- Besides, the data of the inodes in `A` stay where they are. -/
structure Fs.KeptData (A : Set Nat) (d d' : Fs Nat) : Prop extends d.Kept d' where
  data : ∀ a ∈ A, ∀ n x, d.data a n = some x → d'.data a n = some x

/-- The same, and all that is in core stays there. -/
structure Fs.StaysData (A : Set Nat) (d d' : Fs Nat) : Prop extends d.Stays d' where
  data : ∀ a ∈ A, ∀ n x, d.data a n = some x → d'.data a n = some x

/-- A change of an inode that leaves its tree, its type and its number.  Link counts, times and the
mark of the VFS are such changes. -/
def KeepsTree (f : Inode → Inode) : Prop :=
  ∀ i, (f i).blkaddr = i.blkaddr ∧ (f i).i_mode = i.i_mode ∧ (f i).i_ino = i.i_ino

/-- Counts and times are no pointers. -/
theorem LinkStep.keepsTree {f : Inode → Inode} (h : LinkStep f) : KeepsTree f := fun i => by
  obtain ⟨nlink, ctime, he⟩ := h i
  rw [he]
  exact ⟨rfl, rfl, rfl⟩

section Kept

variable {d d' d'' : Fs Nat} {k : Nat} {i : Inode} {c : Ctx} {v : Vol}

theorem Fs.HasTree.inCore (h : d.HasTree k) : d.InCore k := ⟨h.choose, h.choose_spec.1⟩

/-- Nothing done. -/
theorem Fs.Kept.refl (h : d.Books) : d.Kept d :=
  ⟨h, SameVol.refl _, Set.Subset.refl _, fun _ => rfl, fun _ hk => hk⟩

/-- One piece after another. -/
theorem Fs.Kept.trans (h : d.Kept d') (h' : d'.Kept d'') : d.Kept d'' where
  books := h'.books
  vol := h.vol.trans h'.vol
  lost := h.lost.trans h'.lost
  exact hio := (h'.exact fun n => by rw [h.vol.env]; exact hio n).trans (h.exact hio)
  astray k hk := h.astray k (h'.astray k hk)

theorem Fs.Stays.refl (h : d.Books) : d.Stays d := ⟨Fs.Kept.refl h, fun _ i hj => ⟨i, hj, rfl⟩⟩

/-- The same, when everything stays in core. -/
theorem Fs.Stays.trans (h : d.Stays d') (h' : d'.Stays d'') : d.Stays d'' :=
  ⟨h.toKept.trans h'.toKept, fun k i hk => by
    obtain ⟨i', hk', he⟩ := h.core k i hk
    obtain ⟨i'', hk'', he'⟩ := h'.core k i' hk'
    exact ⟨i'', hk'', he'.trans he⟩⟩

/-- What is in core stays in core. -/
theorem Fs.Stays.inCore (h : d.Stays d') (hk : d.InCore k) : d'.InCore k := by
  obtain ⟨i, hk⟩ := hk
  obtain ⟨i', hk', -⟩ := h.core k i hk
  exact ⟨i', hk'⟩

/-- And of a type with a tree. -/
theorem Fs.Stays.hasTree (h : d.Stays d') (hk : d.HasTree k) : d'.HasTree k := by
  obtain ⟨i, hk, hb⟩ := hk
  obtain ⟨i', hk', he⟩ := h.core k i hk
  exact ⟨i', hk', by rw [he]; exact hb⟩

/-- Equal slots and equal marks: equal losses. -/
theorem Fs.lost_congr {K : Type} {d d' : Fs K} (hz : ∀ b, d'.vol.InZone b ↔ d.vol.InZone b)
    (hu : ∀ b, d'.vol.inUse b = d.vol.inUse b)
    (hslot : ∀ k q, shape.IsPath q → d'.slot k q = d.slot k q) : d'.lost = d.lost := by
  have hheld : d'.held = d.held := by
    funext k
    ext b
    simp only [Fs.held, Set.mem_ofPred_eq]
    exact and_congr_right fun _ => exists_congr fun q => and_congr_right fun hq => by rw [hslot k q hq]
  have hmark : d'.mark = d.mark := by
    ext b
    simp only [Fs.mark, Set.mem_ofPred_eq, hz, hu]
  rw [Fs.lost, Fs.lost, hheld, hmark]

/-- Equal slots and equal marks, and the numbers as they should be: the books are kept. -/
theorem Fs.Books.same (h : d.Books) (hv : SameVol d.vol d'.vol) (hn : d'.Recorded)
    (hnum : d'.NumbersOk) (hu : ∀ b, d'.vol.inUse b = d.vol.inUse b)
    (hslot : ∀ k q, shape.IsPath q → d'.slot k q = d.slot k q)
    (hstray : ∀ k, d'.Astray k → d.Astray k) : d.Kept d' := by
  have hz : ∀ b, d'.vol.InZone b ↔ d.vol.InZone b := fun b => by rw [Vol.InZone, Vol.InZone, hv.sbi]
  have hg : TreeGeometry d'.vol := ⟨hv.geometry h.sound.geometry.toGeometry, by
    rw [hv.sbi]
    exact h.sound.geometry.nblocks_le⟩
  have hp : d'.vol.MapPadded := fun b hb hnot => by
    rw [hu]
    rw [hv.sbi] at hb
    exact h.sound.padded b hb fun hin => hnot ((hz b).mpr hin)
  have hlost := Fs.lost_congr hz hu hslot
  exact ⟨⟨(h.sound.congr hg hp hz hu hslot).1, hn, hnum⟩, hv, hlost.symm.subset, fun _ => hlost,
    hstray⟩

/-- **A turn of one inode** keeps the books.  The inode may lose blocks as well as gain them; what
it gave up is free. -/
theorem Fs.Books.own (h : d.Books) (hk : d.inodes k = some i) (hb : has_blocks i.i_mode = true)
    (hs : OwnStep ⟨d.vol, i, 0⟩ c) : d.Stays (d.set k c) := by
  have hk' : (d.set k c).inodes k = some c.inode := Function.update_self _ _ _
  have hb' : has_blocks c.inode.i_mode = true := by rw [hs.mode]; exact hb
  have hturn := h.sound.turn hk hb hs
  refine ⟨⟨⟨h.sound.own hk hb hs, h.numbered.own hk hs, ?_⟩, hs.vol.sameVol, hturn.lost_subset,
    fun hio => hturn.lost_eq fun b hbm => ?_, fun j hj => ?_⟩, fun j i' hj => ?_⟩
  · refine ⟨hs.vol.sameVol.geometry h.numbers.geometry, ?_, ?_, fun j i' hj => ?_⟩
    · rw [Fs.set_vol, Vol.inoLimit, hs.vol.sbi]
      exact h.numbers.limit
    · rw [Fs.set_vol, hs.vol.inodeInUse]
      exact h.numbers.zero
    · rw [Fs.set_vol, hs.vol.inodeInUse]
      rcases eq_or_ne j k with rfl | hne
      · obtain rfl := Option.some.inj (hk'.symm.trans hj)
        rw [hs.ino]
        exact h.numbers.ino j i hk
      · exact h.numbers.ino j i' ((Function.update_of_ne hne _ d.inodes).symm.trans hj)
  · rcases hs.exact hio b hbm.2 with h1 | ⟨h1, h2⟩
    · exact Or.inl (((d.set k c).mem_held hk' hb' b).mpr h1)
    · exact Or.inr ⟨⟨(hs.vol.inZone b).mp hbm.1, h1⟩, fun hh => h2 ((d.mem_held hk hb b).mp hh)⟩
  · refine ⟨(hs.vol.inodeInUse j).symm.trans hj.1, fun hin => hj.2 ?_⟩
    obtain ⟨i', hi'⟩ := hin
    rcases eq_or_ne j k with rfl | hne
    · exact ⟨_, hk'⟩
    · exact ⟨i', (Function.update_of_ne hne _ d.inodes).trans hi'⟩
  · rcases eq_or_ne j k with rfl | hne
    · obtain rfl := Option.some.inj (hk.symm.trans hj)
      exact ⟨c.inode, hk', hs.mode⟩
    · exact ⟨i', (Function.update_of_ne hne _ d.inodes).trans hj, rfl⟩

/-- The same, of a function. -/
theorem Fs.Books.turn (h : d.Books) (hk : d.HasTree k) (f : Ctx → Ctx)
    (hf : ∀ c, TreeOk c → OwnStep c (f c)) : d.Stays (d.set k (f (d.ctx k))) := by
  obtain ⟨i, hk, hb⟩ := hk
  rw [Fs.ctx, Fs.inode_of hk]
  exact h.own hk hb (hf _ (h.sound.treeOk hk hb))

/-- A change of an inode moves no slot. -/
theorem Fs.slot_modify (hk : d.InCore k) {f : Inode → Inode} (hf : KeepsTree f) (j : Nat)
    (q : List Nat) : (d.modify k f).slot j q = d.slot j q := by
  obtain ⟨i, hk⟩ := hk
  obtain ⟨hb, hm, -⟩ := hf i
  rw [Fs.modify, Fs.inode_of hk]
  rcases eq_or_ne j k with rfl | hne
  · simp only [Fs.slot, Function.update_self, hk, hm, Ctx.val, hb]
  · simp only [Fs.slot, Function.update_of_ne hne]

/-- **An inode is changed**, but neither its pointers nor its type nor its number. -/
theorem Fs.Books.modify (h : d.Books) (hk : d.InCore k) {f : Inode → Inode} (hf : KeepsTree f) :
    d.Stays (d.modify k f) := by
  have hslot := Fs.slot_modify hk hf
  obtain ⟨i, hk⟩ := hk
  obtain ⟨hb, hm, hino⟩ := hf i
  have hmod : d.modify k f = ⟨d.vol, Function.update d.inodes k (some (f i))⟩ := by
    unfold Fs.modify
    rw [Fs.inode_of hk]
  rw [hmod] at hslot ⊢
  have hin : ∀ j i₁, Function.update d.inodes k (some (f i)) j = some i₁ →
      ∃ i₂, d.inodes j = some i₂ ∧ i₁.i_ino = i₂.i_ino := by
    intro j i₁ hj
    rcases eq_or_ne j k with rfl | hne
    · rw [Function.update_self] at hj
      exact ⟨i, hk, by rw [← Option.some.inj hj, hino]⟩
    · exact ⟨i₁, (Function.update_of_ne hne _ d.inodes).symm.trans hj, rfl⟩
  refine ⟨h.same (SameVol.refl _) (h.numbered.congr rfl (fun _ _ _ hu => hu) fun j i₁ hj => ?_)
    ⟨h.numbers.geometry, h.numbers.limit, h.numbers.zero, fun j i₁ hj => ?_⟩ (fun _ => rfl)
    (fun j q _ => hslot j q) fun j hj => ⟨hj.1, fun hcore => hj.2 ?_⟩, fun j i₁ hj => ?_⟩
  · obtain ⟨i₂, hj', he⟩ := hin j i₁ hj
    rw [he]
    exact h.numbered.ino j i₂ hj'
  · obtain ⟨i₂, hj', he⟩ := hin j i₁ hj
    rw [he]
    exact h.numbers.ino j i₂ hj'
  · rcases eq_or_ne j k with rfl | hne
    · exact ⟨_, Function.update_self _ _ _⟩
    · obtain ⟨i₁, hi⟩ := hcore
      exact ⟨i₁, (Function.update_of_ne hne _ d.inodes).trans hi⟩
  · rcases eq_or_ne j k with rfl | hne
    · obtain rfl := Option.some.inj (hk.symm.trans hj)
      exact ⟨_, Function.update_self _ _ _, hm⟩
    · exact ⟨i₁, (Function.update_of_ne hne _ d.inodes).trans hj, rfl⟩

/-- A request to the kernel. -/
theorem Fs.Books.tick (h : d.Books) (tick : Nat) :
    d.Stays { d with vol := { d.vol with tick := tick } } :=
  ⟨h.same ⟨rfl, rfl, rfl⟩ (h.numbered.congr rfl (fun _ _ _ hu => hu) h.numbered.ino)
    ⟨{ h.numbers.geometry with }, h.numbers.limit, h.numbers.zero, h.numbers.ino⟩ (fun _ => rfl)
    (fun _ _ _ => rfl) fun _ hj => hj, fun _ i hj => ⟨i, hj, rfl⟩⟩

/-- A scan of a directory. -/
theorem Fs.Books.scan (h : d.Books) (hk : d.InCore k) (ht : Ticked (d.ctx k) c) :
    d.Stays (d.set k c) := by
  obtain ⟨i, hk⟩ := hk
  rw [Fs.set_of_ticked hk ht]
  obtain ⟨t, rfl⟩ := ht
  exact h.tick t

/-- **A new inode** holds nothing. -/
theorem Fs.Books.new_inode (h : d.Books) {dir : Inode} {mode : BitVec 16} {inode : Inode}
    (he : gas_new_inode d.vol dir mode = (none, some inode, v)) (hnew : NewInode d mode inode v)
    (hino : i.i_ino = inode.i_ino) (hzero : ∀ n, i.blkaddr n = 0) :
    d.Stays (Fs.hash { d with vol := v } i) := by
  have hhash : Fs.hash { d with vol := v } i =
      ⟨v, Function.update d.inodes inode.i_ino (some i)⟩ := by
    unfold Fs.hash
    rw [hino]
  have haside : d.Aside v := Fs.new_inode_aside he
  have hnumbered := h.numbered.new_inode (k := inode.i_ino) h.numbers.geometry he 0
  rw [hhash]
  refine ⟨h.same hnew.vol (hnumbered.congr rfl (fun _ _ _ hu => hu) fun k j hk => ?_)
    (hnew.numbers h.numbers (c := ⟨v, i, 0⟩) (BlockStep.refl v) hino)
    (Vol.inUse_congr hnew.vol.sbi hnew.bam) (fun k q hq => ?_) fun k hk => ?_,
    fun k j hk => ⟨j, ?_, rfl⟩⟩
  · rcases eq_or_ne k inode.i_ino with rfl | hne
    · obtain rfl := Option.some.inj ((Function.update_self _ _ d.inodes).symm.trans hk)
      rw [hino, ← (gas_set_inode_fields inode 0).1]
      exact hnumbered.ino inode.i_ino _ (Function.update_self _ _ _)
    · exact hnumbered.ino k j ((Function.update_of_ne hne _ d.inodes).trans
        ((Function.update_of_ne hne _ d.inodes).symm.trans hk))
  · rw [← haside.slot k hq]
    rcases eq_or_ne k inode.i_ino with rfl | hne
    · have hnone : i.blkaddr = fun _ => 0 := funext hzero
      simp only [Fs.slot, Function.update_self, hnew.absent, Ctx.val, hnone, val_no_pointers, ite_self]
    · simp only [Fs.slot, Function.update_of_ne hne]
  · have hne : k ≠ inode.i_ino := by
      rintro rfl
      exact hk.2 ⟨i, Function.update_self _ _ _⟩
    refine ⟨((hnew.bits k).trans (if_neg hne)).symm.trans hk.1, fun hin => hk.2 ?_⟩
    obtain ⟨j, hj⟩ := hin
    exact ⟨j, (Function.update_of_ne hne _ d.inodes).trans hj⟩
  · refine (Function.update_of_ne ?_ _ d.inodes).trans hk
    rintro rfl
    rw [hnew.absent] at hk
    simp at hk

/-- **An inode without links goes away**, and what it held comes back.  Where a buffer cannot be
read while the file is cut, the blocks behind it are lost. -/
theorem Fs.Books.evict (h : d.Books) (hk : d.inodes k = some i) (hl : i.i_nlink = 0) :
    d.Kept ⟨(gas_evict_inode (d.ctx k)).v, Function.update d.inodes k none⟩ := by
  have hctx : d.ctx k = ⟨d.vol, i, 0⟩ := by rw [Fs.ctx, Fs.inode_of hk]
  have hnums := (h.numbers.evict hk hl).1
  rw [hctx] at hnums ⊢
  obtain ⟨c', hv, hino, hblk, hnone⟩ := gas_evict_inode_eq hl fun hb => h.sound.treeOk hk hb
  -- first the tree is cut, then the inode goes
  obtain ⟨m, hm, hvol, hother, hzero⟩ : ∃ m : Fs Nat, d.Kept m ∧ m.vol = c'.v ∧
      (∀ j, j ≠ k → m.inodes j = d.inodes j) ∧ ∀ q, shape.IsPath q → m.slot k q = 0 := by
    cases hb : has_blocks i.i_mode with
    | true =>
      obtain ⟨hs, hempty⟩ := hblk hb
      refine ⟨d.set k c', (h.own hk hb hs).toKept, rfl, fun j hne => Function.update_of_ne hne _ _,
        fun q hq => ?_⟩
      have hk' : (d.set k c').inodes k = some c'.inode := Function.update_self _ _ _
      rw [(d.set k c').slot_of_blocks hk' (by rw [hs.mode]; exact hb)]
      by_contra hne
      exact hempty _ ⟨hne, q, hq, rfl⟩
    | false =>
      exact ⟨d, Fs.Kept.refl h, (hnone hb).symm, fun _ _ => rfl, fun q _ => by simp [Fs.slot, hk, hb]⟩
  -- its record is in front of the data zone, so it holds no pointer
  have hi := h.numbered.ino k i hk
  rw [← hvol] at hv
  rw [hv] at hnums ⊢
  have hfrees : m.vol.Frees c'.inode.i_ino := by
    rw [Vol.Frees, Vol.inoLimit, hm.vol.sbi, hino]
    exact ⟨hi.1, Nat.le_of_lt hi.2.1, hi.2.2⟩
  obtain ⟨words, he, hw⟩ := gas_free_inode_eq hm.books.numbers.geometry c'.inode hfrees.1 hfrees.2.1
    hfrees.2.2
  have ha : m.Aside (gas_free_inode m.vol c'.inode) := by
    rw [he]
    refine hm.books.sound.aside_of_zone fun b hb => funext fun w => hw b w ?_
    rw [hino, hm.vol.sbi]
    rintro rfl
    refine absurd hb.1 (Nat.not_le.mpr ?_)
    rw [hm.vol.sbi]
    exact h.numbered.list _ hi.2.1
  have hbam : (gas_free_inode m.vol c'.inode).bam = m.vol.bam := by rw [he]
  have hbits : (gas_free_inode m.vol c'.inode).s_blocksize_bits = m.vol.s_blocksize_bits := by rw [he]
  refine hm.trans (hm.books.same ⟨ha.same.1, hbits, ha.same.2⟩ ?_ hnums
    (Vol.inUse_congr ha.same.1 hbam) (fun j q hq => ?_) fun j hj => ?_)
  · have hn := h.numbered.evict h.sound hk hl
    rwa [hv] at hn
  · rcases eq_or_ne j k with rfl | hne
    · rw [hzero q hq]
      simp [Fs.slot]
    · rw [← ha.slot j hq]
      simp only [Fs.slot, Function.update_of_ne hne, hother j hne]
  · have hbit : (gas_free_inode m.vol c'.inode).inodeInUse j =
        if j = i.i_ino then false else m.vol.inodeInUse j := by
      rw [he]
      simp only [Vol.inodeInUse, write_bit_block, hino]
    have hused := hj.1
    rw [hbit] at hused
    split_ifs at hused with hne
    rw [(h.numbers.ino k i hk).1] at hne
    refine ⟨hused, fun hin => hj.2 ?_⟩
    obtain ⟨i', hi'⟩ := hin
    exact ⟨i', (Function.update_of_ne hne _ d.inodes).trans ((hother j hne).symm.trans hi')⟩

/-- The last reference to an inode is dropped. -/
theorem Fs.Books.iput (h : d.Books) (hk : d.InCore k) : d.Kept (d.iput k) := by
  obtain ⟨i, hk⟩ := hk
  unfold Fs.iput
  split
  · next hl => exact h.evict hk (by rw [← hl, Fs.inode_of hk])
  · exact Fs.Kept.refl h

end Kept

/-! ## 3. Data

The same pieces again, with what they do to the data of others.  A block of another inode is not
touched because the trees share none, and that is one of the things the books say. -/

section Data

variable {A : Set Nat} {d d' d'' : Fs Nat} {a k n : Nat} {i : Inode} {c : Ctx} {v : Vol} {x : Nat → Nat}

theorem Fs.StaysData.toKeptData (h : d.StaysData A d') : d.KeptData A d' := ⟨h.toKept, h.data⟩

theorem Fs.KeptData.refl (h : d.Books) : d.KeptData A d := ⟨Fs.Kept.refl h, fun _ _ _ _ hx => hx⟩

/-- Data that two pieces keep is kept by both together. -/
theorem Fs.KeptData.trans (h : d.KeptData A d') (h' : d'.KeptData A d'') : d.KeptData A d'' :=
  ⟨h.toKept.trans h'.toKept, fun a ha n x hx => h'.data a ha n x (h.data a ha n x hx)⟩

theorem Fs.StaysData.trans (h : d.StaysData A d') (h' : d'.StaysData A d'') : d.StaysData A d'' :=
  ⟨h.toStays.trans h'.toStays, fun a ha n x hx => h'.data a ha n x (h.data a ha n x hx)⟩

/-- The data of a logical block are the words of the block it is mapped to. -/
theorem Fs.data_eq_some : d.data k n = some x ↔ ∃ b, d.mapped k n = some b ∧ d.vol.words b = x :=
  Option.map_eq_some_iff

/-- What is mapped is held. -/
theorem Fs.Books.mapped_held (h : d.Books) {b : Nat} (hb : d.mapped k n = some b) : b ∈ d.held k := by
  obtain ⟨hs, hne⟩ := Fs.mapped_eq_some.mp hb
  have hnil : block_to_path d.vol n ≠ [] := by
    intro he
    rw [he] at hs
    refine hne (hs.symm.trans ?_)
    unfold Fs.slot
    split
    · split <;> rfl
    · rfl
  exact ⟨hne, _, (block_to_path_isLeaf h.sound.geometry hnil).1, hs⟩

/-- A file that is left alone keeps its data. -/
theorem Fs.SameFile.data (hs : d.SameFile a d') (h : d.Books) (hx : d.data a n = some x) :
    d'.data a n = some x := by
  obtain ⟨b, hb, hw⟩ := Fs.data_eq_some.mp hx
  refine Fs.data_eq_some.mpr ⟨b, ?_, ?_⟩
  · rw [hs.mapped h.sound.geometry]
    exact hb
  · rw [hs.words b (h.mapped_held hb)]
    exact hw

/-- Equal slots and equal words. -/
theorem Fs.data_congr (hv : BlockStep d.vol d'.vol) (hw : d'.vol.words = d.vol.words)
    (hslot : ∀ q, d'.slot a q = d.slot a q) : d'.data a n = d.data a n := by
  rw [Fs.data, Fs.data, Fs.mapped, Fs.mapped, block_to_path_step hv, hslot, hw]

/-- The blocks that a turn keeps. -/
theorem KeepsBlocks.data {B : Set Nat} (hkeep : KeepsBlocks B ⟨d.vol, i, 0⟩ c)
    (hs : OwnStep ⟨d.vol, i, 0⟩ c) (hk : d.inodes k = some i) (hb : has_blocks i.i_mode = true)
    (hn : n ∈ B) (hx : d.data k n = some x) : (d.set k c).data k n = some x := by
  obtain ⟨b, hm, hw⟩ := Fs.data_eq_some.mp hx
  obtain ⟨hslot, hne⟩ := Fs.mapped_eq_some.mp hm
  rw [d.slot_of_blocks hk hb] at hslot
  obtain ⟨hval, hwords⟩ := hkeep n hn (by rw [hslot]; exact hne)
  rw [hslot] at hval hwords
  refine Fs.data_eq_some.mpr ⟨b, (Fs.mapped_set (by rw [hs.mode]; exact hb) hs.vol).mpr ⟨hval, hne⟩, ?_⟩
  exact hwords.trans hw

/-- The turn of another inode. -/
theorem Fs.Books.other_data (h : d.Books) (hk : d.inodes k = some i) (hb : has_blocks i.i_mode = true)
    (hs : OwnStep ⟨d.vol, i, 0⟩ c) (hne : k ≠ a) (hx : d.data a n = some x) :
    (d.set k c).data a n = some x :=
  (h.sound.sameFile_own hk hb hs hne).data h hx

/-- **A turn that fills holes** keeps all data.  No pointer that was set changes. -/
theorem Fs.Books.fill (h : d.Books) (hk : d.HasTree k) (f : Ctx → Ctx)
    (hf : ∀ c, TreeOk c → FillStep c (f c)) : d.StaysData A (d.set k (f (d.ctx k))) := by
  refine ⟨h.turn hk f fun c hc => (hf c hc).toOwnStep, fun a _ n x hx => ?_⟩
  obtain ⟨i, hk, hb⟩ := hk
  rw [Fs.ctx, Fs.inode_of hk]
  have hs := hf _ (h.sound.treeOk hk hb)
  by_cases hak : k = a
  · subst hak
    exact hs.data.data hs.toOwnStep hk hb trivial hx
  · exact h.other_data hk hb hs.toOwnStep hak hx

/-- Any turn keeps the data of others. -/
theorem Fs.Books.turn_data (h : d.Books) (hk : d.HasTree k) (hA : k ∉ A) (f : Ctx → Ctx)
    (hf : ∀ c, TreeOk c → OwnStep c (f c)) : d.StaysData A (d.set k (f (d.ctx k))) := by
  refine ⟨h.turn hk f hf, fun a ha n x hx => ?_⟩
  obtain ⟨i, hk, hb⟩ := hk
  rw [Fs.ctx, Fs.inode_of hk]
  exact h.other_data hk hb (hf _ (h.sound.treeOk hk hb)) (fun he => hA (he ▸ ha)) hx

theorem Fs.Books.modify_data (h : d.Books) (hk : d.InCore k) {f : Inode → Inode} (hf : KeepsTree f) :
    d.StaysData A (d.modify k f) :=
  ⟨h.modify hk hf, fun a _ n x hx => by
    have hd : d.data a n = (d.modify k f).data a n :=
      Fs.data_congr (BlockStep.refl d.vol) rfl fun q => (Fs.slot_modify hk hf a q).symm
    exact hd ▸ hx⟩

theorem Fs.Books.tick_data (h : d.Books) (tick : Nat) :
    d.StaysData A { d with vol := { d.vol with tick := tick } } :=
  ⟨h.tick tick, fun _ _ _ _ hx => hx⟩

/-- A scan changes no data. -/
theorem Fs.Books.scan_data (h : d.Books) (hk : d.InCore k) (ht : Ticked (d.ctx k) c) :
    d.StaysData A (d.set k c) := by
  obtain ⟨i, hk⟩ := hk
  rw [Fs.set_of_ticked hk ht]
  obtain ⟨t, rfl⟩ := ht
  exact h.tick_data t

/-- A new inode is none of those that were in core. -/
theorem Fs.Books.new_inode_data (h : d.Books) {dir : Inode} {mode : BitVec 16} {inode : Inode}
    (he : gas_new_inode d.vol dir mode = (none, some inode, v)) (hnew : NewInode d mode inode v)
    (hino : i.i_ino = inode.i_ino) (hzero : ∀ n, i.blkaddr n = 0) :
    d.StaysData A (Fs.hash { d with vol := v } i) := by
  refine ⟨h.new_inode he hnew hino hzero, fun a _ n x hx => ?_⟩
  have hne : a ≠ i.i_ino := by
    rintro rfl
    obtain ⟨b, hb, -⟩ := Fs.data_eq_some.mp hx
    obtain ⟨hs, hne⟩ := Fs.mapped_eq_some.mp hb
    rw [Fs.slot, hino, hnew.absent] at hs
    exact hne hs.symm
  exact ((Fs.new_inode_aside he).sameFile (Function.update_of_ne hne _ d.inodes)).data h hx

/-- The end of an inode leaves all others alone. -/
theorem Fs.Books.iput_data (h : d.Books) (hk : d.InCore k) (hA : (d.inode k).i_nlink = 0 → k ∉ A) :
    d.KeptData A (d.iput k) := by
  refine ⟨h.iput hk, fun a ha n x hx => ?_⟩
  obtain ⟨i, hk⟩ := hk
  unfold Fs.iput
  split
  · next hl =>
    have hl' : i.i_nlink = 0 := by rw [← hl, Fs.inode_of hk]
    have hne : some k ≠ some a := fun he => hA hl (Option.some.inj he ▸ ha)
    have hctx : d.ctx k = ⟨d.vol, i, 0⟩ := by rw [Fs.ctx, Fs.inode_of hk]
    rw [hctx]
    exact (h.sound.sameFile_evict hk hl' (h.numbered.numbered.spares h.sound hk) fun he =>
      hne (congrArg some he)).data h hx
  · exact hx

end Data

/-! ## 4. Calls

The calls in the order of `gas_namei.c`.  Each proof follows the source: the pieces in their order,
and at each branch the pieces of that exit. -/

section Calls

variable {A : Set Nat} {d : Fs Nat} {dir inode : Nat} {name : List UInt8}

/-- The mark of the VFS leaves the tree. -/
theorem bury_keepsTree : KeepsTree fun i => { i with dead := true } := fun _ => ⟨rfl, rfl, rfl⟩

/-- The new inode is of the type asked for. -/
theorem gas_new_inode_mode {v v' : Vol} (hg : Geometry v) (hlim : v.inoLimit ≤ 4294967296) {dir i : Inode}
    {mode : BitVec 16} (he : gas_new_inode v dir mode = (none, some i, v')) :
    i.i_mode &&& S_IFMT = mode &&& S_IFMT := by
  rcases gas_new_inode_cases hg hlim dir mode with ⟨ino, hint, he', -⟩ | ⟨e', he', -⟩
  · rw [he'] at he
    rw [← Option.some.inj (Prod.mk.inj (Prod.mk.inj he).2).1]
    dsimp only [inode_init_owner]
    split_ifs
    · rw [BitVec.and_or_distrib_right, show S_ISGID &&& S_IFMT = 0#16 from by decide, BitVec.or_zero]
    · rfl
  · simp [he'] at he

/-- Whether an inode has blocks is told by its type. -/
theorem has_blocks_congr {m m' : BitVec 16} (h : m &&& S_IFMT = m' &&& S_IFMT) :
    has_blocks m = has_blocks m' := by
  simp only [has_blocks, S_ISREG, S_ISDIR, S_ISLNK, h]

/-- A new inode in core. -/
theorem Fs.hash_inCore (d : Fs Nat) (i : Inode) : (d.hash i).InCore i.i_ino :=
  ⟨i, Function.update_self _ _ _⟩

theorem Fs.hash_hasTree (d : Fs Nat) {i : Inode} {mode : BitVec 16}
    (hm : i.i_mode &&& S_IFMT = mode &&& S_IFMT) (hb : has_blocks mode = true) :
    (d.hash i).HasTree i.i_ino :=
  ⟨i, Function.update_self _ _ _, by rw [has_blocks_congr hm]; exact hb⟩

/-- The operation tables do not change the mode. -/
theorem gas_set_inode_mode (inode : Inode) (rdev : Nat) :
    (gas_set_inode inode rdev).i_mode = inode.i_mode := by
  obtain ⟨op, he⟩ := gas_set_inode_eq inode rdev
  rw [he]

/-- A number in use is not that of a new inode. -/
theorem NewInode.notMem {mode : BitVec 16} {i : Inode} {v : Vol} (h : NewInode d mode i v)
    (hA : ∀ a ∈ A, d.InCore a) : i.i_ino ∉ A := by
  intro hin
  obtain ⟨j, hj⟩ := hA _ hin
  rw [h.absent] at hj
  simp at hj

/-- `add_nondir`: an entry, or the reference to the inode dropped. -/
theorem Fs.Books.add_nondir (h : d.Books) (hdir : d.HasTree dir) (hin : d.InCore inode)
    {last : Bool} (hA : last = true → inode ∉ A) :
    d.KeptData A (GasFs.add_nondir d dir name inode last).1 := by
  have hadd : d.StaysData A _ := h.fill hdir (fun c => (gas_add_link c name (d.inode inode).i_ino).1)
    fun c hc => gas_add_link_fillStep hc name _
  unfold GasFs.add_nondir
  generalize gas_add_link (d.ctx dir) name (d.inode inode).i_ino = r at hadd
  obtain ⟨c, _ | e⟩ := r
  · exact hadd.toKeptData
  · cases last with
    | false => exact hadd.toKeptData
    | true =>
      exact hadd.toKeptData.trans (hadd.books.iput_data (hadd.inCore hin) fun _ => hA rfl)

/-- **`gas_mknod` and `gas_create`** keep the books, and the data of all inodes in core. -/
theorem Fs.Books.new_nondir (h : d.Books) (hdir : d.HasTree dir) (hA : ∀ a ∈ A, d.InCore a)
    (mode : BitVec 16) (rdev : Nat) : d.KeptData A (GasFs.new_nondir d dir name mode rdev).1 := by
  unfold GasFs.new_nondir
  rcases h.numbers.new_inode (d.inode dir) mode with ⟨inode, v, he, hnew⟩ | ⟨-, e, he⟩
  · rw [he]
    have hset := hnew.set_inode rdev
    have hino := (gas_set_inode_fields inode rdev).1
    have hput : d.StaysData A _ := h.new_inode_data he hnew hino hset.blkaddr
    have hin := Fs.hash_inCore { d with vol := v } (gas_set_inode inode rdev)
    rw [hino] at hin
    exact hput.toKeptData.trans (hput.books.add_nondir (hput.hasTree hdir) hin fun _ => hnew.notMem hA)
  · rw [he]
    exact (h.tick_data _).toKeptData

/-- **`gas_symlink`** does, also where the body cannot be written. -/
theorem Fs.Books.symlink (h : d.Books) (hdir : d.HasTree dir) (hA : ∀ a ∈ A, d.InCore a)
    (symname : List UInt8) : d.KeptData A (gas_symlink d dir name symname).1 := by
  unfold gas_symlink
  split_ifs
  · exact Fs.KeptData.refl h
  rcases h.numbers.new_inode (d.inode dir) (S_IFLNK ||| 0o777#16) with ⟨inode, v, he, hnew⟩ | ⟨-, e, he⟩
  · rw [he]
    have hset := hnew.set_inode 0
    have hino := (gas_set_inode_fields inode 0).1
    have hput : d.StaysData A _ := h.new_inode_data he hnew hino hset.blkaddr
    have hnot := hnew.notMem hA
    have hin : (Fs.hash { d with vol := v } (gas_set_inode inode 0)).HasTree inode.i_ino := by
      have hm := gas_new_inode_mode h.numbers.geometry h.numbers.limit he
      rw [← gas_set_inode_mode inode 0] at hm
      have ht := Fs.hash_hasTree { d with vol := v } hm (by decide)
      rwa [hino] at ht
    have hbody := hput.books.turn_data hin hnot (fun c => (page_symlink c symname).1)
      fun c hc => page_symlink_ownStep hc symname
    dsimp only
    generalize page_symlink ((Fs.hash { d with vol := v } (gas_set_inode inode 0)).ctx inode.i_ino)
      symname = r at hbody
    have hwritten := hput.trans hbody
    obtain ⟨c, _ | e⟩ := r
    · exact hwritten.toKeptData.trans (hbody.books.add_nondir (hwritten.hasTree hdir)
        (hbody.inCore hin.inCore) fun _ => hnot)
    · have hdec := hbody.books.modify_data (A := A) (hbody.inCore hin.inCore) dec_linkStep.keepsTree
      exact (hwritten.trans hdec).toKeptData.trans
        (hdec.books.iput_data (hdec.inCore (hbody.inCore hin.inCore)) fun _ => hnot)
  · rw [he]
    exact (h.tick_data _).toKeptData

/-- **`gas_link`** does. -/
theorem Fs.Books.link (h : d.Books) (hdir : d.HasTree dir) (hin : d.InCore inode) :
    d.KeptData A (gas_link d inode dir name).1 := by
  have htime : d.StaysData A _ := h.modify_data hin (ctime_linkStep d.vol.now).keepsTree
  have hinc := htime.books.modify_data (A := A) (htime.inCore hin) inc_linkStep.keepsTree
  have hboth := htime.trans hinc
  exact hboth.toKeptData.trans (hinc.books.add_nondir (hboth.hasTree hdir) (hboth.inCore hin) (by simp))

/-- The exit of `gas_mkdir`: the new inode goes, and the link of its parent. -/
theorem Fs.Books.mkdir_fail (h : d.Books) (hdir : d.InCore dir) (hin : d.InCore inode)
    (hne : dir ≠ inode) (hA : inode ∉ A) : d.KeptData A (GasFs.mkdir_fail d dir inode) := by
  have hdec : d.StaysData A _ := h.modify_data hin dec_linkStep.keepsTree
  have hdec2 := hdec.books.modify_data (A := A) (hdec.inCore hin) dec_linkStep.keepsTree
  have hboth := hdec.trans hdec2
  have hput := hdec2.books.iput_data (A := A) (hboth.inCore hin) fun _ => hA
  have hdir' : (((d.modify inode inode_dec_link_count).modify inode
      inode_dec_link_count).iput inode).InCore dir := by
    obtain ⟨i, hi⟩ := hboth.inCore hdir
    unfold Fs.iput
    split_ifs
    · exact ⟨i, (Function.update_of_ne hne _ _).trans hi⟩
    · exact ⟨i, hi⟩
  exact (hboth.toKeptData.trans hput).trans (hput.books.modify_data hdir' dec_linkStep.keepsTree).toKeptData

/-- **`gas_mkdir`** does, from each of its exits.  The new inode is none of `A`, since no inode in
core had its number. -/
theorem Fs.Books.mkdir (h : d.Books) (hdir : d.HasTree dir) (hA : ∀ a ∈ A, d.InCore a)
    {mode : BitVec 16} (hmode : S_ISDIR (S_IFDIR ||| mode) = true) :
    d.KeptData A (gas_mkdir d dir name mode).1 := by
  have hinc : d.StaysData A _ := h.modify_data hdir.inCore inc_linkStep.keepsTree
  unfold gas_mkdir
  dsimp only
  generalize d.modify dir inode_inc_link_count = d1 at hinc
  rcases hinc.books.numbers.new_inode (d1.inode dir) (S_IFDIR ||| mode) with
    ⟨inode, v, he, hnew⟩ | ⟨-, e, he⟩
  · rw [he]
    dsimp only
    have hino : (gas_set_inode (inode_inc_link_count inode) 0).i_ino = inode.i_ino :=
      (gas_set_inode_fields _ 0).1
    have hput := hinc.books.new_inode_data (A := A) he hnew hino fun n => by
      rw [(gas_set_inode_fields _ 0).2]
      exact hnew.blkaddr n
    have hnot := hnew.notMem fun a ha => hinc.inCore (hA a ha)
    have hne : dir ≠ inode.i_ino := by
      rintro rfl
      obtain ⟨i, hi⟩ := hinc.inCore hdir.inCore
      rw [hnew.absent] at hi
      simp at hi
    have hin : (Fs.hash { d1 with vol := v }
        (gas_set_inode (inode_inc_link_count inode) 0)).HasTree inode.i_ino := by
      have hm := gas_new_inode_mode hinc.books.numbers.geometry hinc.books.numbers.limit he
      have hb : has_blocks (S_IFDIR ||| mode) = true := by
        rw [has_blocks, hmode, Bool.or_true, Bool.true_or]
      have ht := Fs.hash_hasTree { d1 with vol := v }
        (i := gas_set_inode (inode_inc_link_count inode) 0) (by rw [gas_set_inode_mode]; exact hm) hb
      rwa [hino] at ht
    generalize Fs.hash { d1 with vol := v } (gas_set_inode (inode_inc_link_count inode) 0) = d2
      at hput hin
    have hhead := hinc.trans hput
    have hempty := hput.books.fill (A := A) hin (fun c => (gas_make_empty c (d2.inode dir).i_ino).1)
      fun c hc => gas_make_empty_fillStep hc _
    generalize gas_make_empty (d2.ctx inode.i_ino) (d2.inode dir).i_ino = r at hempty
    have hmade := hhead.trans hempty
    obtain ⟨c, _ | e⟩ := r
    · have hadd := hempty.books.fill (A := A) (hmade.hasTree hdir)
        (fun c' => (gas_add_link c' name ((d2.set inode.i_ino c).inode inode.i_ino).i_ino).1)
        fun c' hc => gas_add_link_fillStep hc name _
      dsimp only
      generalize gas_add_link ((d2.set inode.i_ino c).ctx dir) name
        ((d2.set inode.i_ino c).inode inode.i_ino).i_ino = r' at hadd
      have hentered := hmade.trans hadd
      obtain ⟨c', _ | e⟩ := r'
      · exact hentered.toKeptData
      · exact hentered.toKeptData.trans (hadd.books.mkdir_fail (hentered.inCore hdir.inCore)
          (hadd.inCore (hempty.inCore hin.inCore)) hne hnot)
    · exact hmade.toKeptData.trans (hempty.books.mkdir_fail (hmade.inCore hdir.inCore)
        (hempty.inCore hin.inCore) hne hnot)
  · rw [he]
    have htick := hinc.books.tick_data (A := A) (d1.vol.tick + 1)
    exact ((hinc.trans htick).trans (htick.books.modify_data ((hinc.trans htick).inCore hdir.inCore)
      dec_linkStep.keepsTree)).toKeptData

/-- **`gas_unlink`** does, and its inode stays. -/
theorem Fs.Books.unlink (h : d.Books) (hdir : d.HasTree dir) (hin : d.InCore inode) :
    d.StaysData A (gas_unlink d dir name inode).1 := by
  unfold gas_unlink
  have hfind : d.StaysData A _ := h.scan_data hdir.inCore (gas_find_entry_ticked (d.ctx dir) name)
  have hdel : ∀ n p, d.StaysData A _ := fun n p =>
    h.fill hdir (fun c => (gas_delete_entry (gas_find_entry c name).2 n p).1) fun c hc => by
      have hs := (gas_find_entry_ticked c name).fillStep hc
      exact hs.trans (gas_delete_entry_fillStep hs.ok n p)
  generalize gas_find_entry (d.ctx dir) name = r at hfind hdel
  obtain ⟨_ | ⟨n, p⟩, c⟩ := r
  · exact hfind
  · have hdel := hdel n p
    dsimp only at hdel ⊢
    generalize gas_delete_entry c n p = r at hdel
    obtain ⟨c', _ | e⟩ := r
    · have htime := hdel.books.modify_data (A := A) (hdel.inCore hin)
        (ctime_linkStep ((d.set dir c').inode dir).i_ctime).keepsTree
      have hdec := htime.books.modify_data (A := A) (htime.inCore (hdel.inCore hin)) dec_linkStep.keepsTree
      exact (hdel.trans htime).trans hdec
    · exact hdel

/-- **`gas_rmdir`** does. -/
theorem Fs.Books.rmdir (h : d.Books) (hdir : d.HasTree dir) (hin : d.InCore inode) :
    d.StaysData A (gas_rmdir d dir name inode).1 := by
  unfold gas_rmdir
  have hempty : d.StaysData A _ := h.scan_data hin (gas_empty_dir_ticked (d.ctx inode))
  generalize gas_empty_dir (d.ctx inode) = r at hempty
  obtain ⟨_ | _, c⟩ := r
  · exact hempty
  · have hun : (d.set inode c).StaysData A (gas_unlink (d.set inode c) dir name inode).1 :=
      hempty.books.unlink (hempty.hasTree hdir) (hempty.inCore hin)
    have hboth := hempty.trans hun
    dsimp only
    generalize gas_unlink (d.set inode c) dir name inode = r at hun hboth
    obtain ⟨d', _ | e⟩ := r
    · have hdec := hun.books.modify_data (A := A) (hboth.inCore hdir.inCore) dec_linkStep.keepsTree
      have hdec2 := hdec.books.modify_data (A := A) (hdec.inCore (hboth.inCore hin)) dec_linkStep.keepsTree
      exact (hboth.trans hdec).trans hdec2
    · exact hboth

section Rename

variable {old_dir old_inode new_dir : Nat} {old_name new_name : List UInt8} {new_inode : Option Nat}

/-- The scans of `gas_rename`; the record of `..` is one of a directory. -/
theorem Fs.Books.rename_find (h : d.Books) (hdir : d.InCore old_dir) (hin : d.InCore old_inode) :
    d.StaysData A (GasFs.rename_find d old_dir old_name old_inode).1 ∧
      ∀ old_de dir_de, (GasFs.rename_find d old_dir old_name old_inode).2 = .ok (old_de, some dir_de) →
        d.HasTree old_inode := by
  have hticked := gas_find_entry_ticked (d.ctx old_dir) old_name
  have hfind : d.StaysData A _ := h.scan_data hdir hticked
  unfold GasFs.rename_find
  generalize gas_find_entry (d.ctx old_dir) old_name = r at hfind hticked
  obtain ⟨_ | old_de, c⟩ := r
  · exact ⟨hfind, by simp⟩
  dsimp only
  have hsame : (d.set old_dir c).inode old_inode = d.inode old_inode :=
    congrArg Ctx.inode (d.set_ticked old_dir old_inode hticked)
  split_ifs with hmode
  · have hdot := hfind.books.scan_data (A := A) (hfind.inCore hin)
      (gas_dotdot_ticked ((d.set old_dir c).ctx old_inode))
    have htree : d.HasTree old_inode := by
      obtain ⟨i, hi⟩ := hin
      rw [hsame, Fs.inode_of hi] at hmode
      exact ⟨i, hi, has_blocks_of_dir hmode⟩
    generalize gas_dotdot ((d.set old_dir c).ctx old_inode) = r at hdot
    obtain ⟨_ | dir_de, c'⟩ := r
    · exact ⟨hfind.trans hdot, by simp⟩
    · exact ⟨hfind.trans hdot, fun _ _ _ => htree⟩
  · exact ⟨hfind, by simp⟩

/-- The second part of `gas_rename`: the name overwritten, or a new one. -/
theorem Fs.Books.rename_target (h : d.Books) (hdir : d.HasTree new_dir)
    (hin : ∀ k, new_inode = some k → d.InCore k) (dir_de : Option (Nat × Nat)) :
    d.StaysData A (GasFs.rename_target d old_inode new_dir new_name new_inode dir_de).1 := by
  cases new_inode with
  | some k =>
    have hk := hin k rfl
    unfold GasFs.rename_target
    dsimp only
    have hempty : d.StaysData A (d.set k (if dir_de.isSome then gas_empty_dir (d.ctx k)
        else (true, d.ctx k)).2) := by
      split_ifs
      · exact h.scan_data hk (gas_empty_dir_ticked _)
      · exact h.scan_data hk (Ticked.refl _)
    generalize (if dir_de.isSome then gas_empty_dir (d.ctx k) else (true, d.ctx k)) = r at hempty
    by_cases hr : r.1 = false
    · rw [if_pos hr]
      exact hempty
    rw [if_neg hr]
    generalize d.set k r.2 = d1 at hempty
    have hfind := hempty.books.scan_data (A := A) (hempty.hasTree hdir).inCore
      (gas_find_entry_ticked (d1.ctx new_dir) new_name)
    have hlink := fun n p => hempty.books.fill (A := A) (hempty.hasTree hdir)
      (fun c => gas_set_link (gas_find_entry c new_name).2 n p old_inode) fun c hc => by
        have hs := (gas_find_entry_ticked c new_name).fillStep hc
        exact hs.trans (gas_set_link_fillStep hs.ok n p old_inode)
    generalize gas_find_entry (d1.ctx new_dir) new_name = r' at hfind hlink
    obtain ⟨_ | ⟨n, p⟩, c⟩ := r'
    · exact hempty.trans hfind
    · have hlink := hempty.trans (hlink n p)
      dsimp only at hlink ⊢
      generalize d1.set new_dir (gas_set_link c n p old_inode) = d2 at hlink
      have htime := hlink.trans (hlink.books.modify_data (hlink.inCore hk)
        (ctime_linkStep d2.vol.now).keepsTree)
      generalize (d2.modify k fun i => { i with i_ctime := d2.vol.now }) = d3 at htime
      have hdrop : d.StaysData A (if dir_de.isSome then d3.modify k inode_dec_link_count else d3) := by
        split_ifs
        · exact htime.trans (htime.books.modify_data (htime.inCore hk) dec_linkStep.keepsTree)
        · exact htime
      exact hdrop.trans (hdrop.books.modify_data (hdrop.inCore hk) dec_linkStep.keepsTree)
  | none =>
    have hadd : d.StaysData A _ := h.fill hdir
      (fun c => (gas_add_link c new_name (d.inode old_inode).i_ino).1)
      fun c hc => gas_add_link_fillStep hc new_name _
    unfold GasFs.rename_target
    dsimp only
    generalize gas_add_link (d.ctx new_dir) new_name (d.inode old_inode).i_ino = r at hadd
    obtain ⟨c, _ | e⟩ := r
    · dsimp only
      split_ifs
      · exact hadd.trans (hadd.books.modify_data (hadd.hasTree hdir).inCore inc_linkStep.keepsTree)
      · exact hadd
    · exact hadd

/-- The third part: the old name, and `..` of a directory that moved. -/
theorem Fs.Books.rename_source (h : d.Books) (hdir : d.HasTree old_dir)
    {dir_de : Option (Nat × Nat)} (hin : dir_de.isSome = true → d.HasTree old_inode)
    (old_de : Nat × Nat) :
    d.StaysData A (GasFs.rename_source d old_dir old_inode new_dir old_de dir_de) := by
  have hdel : d.StaysData A _ := h.fill hdir (fun c => (gas_delete_entry c old_de.1 old_de.2).1)
    fun c hc => gas_delete_entry_fillStep hc _ _
  unfold GasFs.rename_source
  cases dir_de with
  | none => exact hdel
  | some dir_de =>
    have hlink := hdel.books.fill (A := A) (hdel.hasTree (hin rfl))
      (fun c => gas_set_link c dir_de.1 dir_de.2 new_dir) fun c hc => gas_set_link_fillStep hc _ _ _
    have hboth := hdel.trans hlink
    exact hboth.trans (hlink.books.modify_data (hboth.hasTree hdir).inCore dec_linkStep.keepsTree)

/-- **`gas_rename`** does, from each of its exits.  The link counts may be wrong afterwards; the
books do not depend on them. -/
theorem Fs.Books.rename (h : d.Books) (hold : d.HasTree old_dir) (hnew : d.HasTree new_dir)
    (hin : d.InCore old_inode) (htarget : ∀ k, new_inode = some k → d.InCore k) :
    d.StaysData A (gas_rename d old_dir old_name old_inode new_dir new_name new_inode).1 := by
  obtain ⟨hfind, htree⟩ := @Fs.Books.rename_find A d old_dir old_inode old_name h hold.inCore hin
  unfold gas_rename rename_enter
  generalize GasFs.rename_find d old_dir old_name old_inode = r at hfind htree
  obtain ⟨d1, e | ⟨old_de, dir_de⟩⟩ := r
  · exact hfind
  have htarget' : d1.StaysData A (GasFs.rename_target d1 old_inode new_dir new_name new_inode dir_de).1 :=
    hfind.books.rename_target (hfind.hasTree hnew) (fun k hk => hfind.inCore (htarget k hk)) dir_de
  have henter := hfind.trans htarget'
  dsimp only at henter ⊢
  generalize GasFs.rename_target d1 old_inode new_dir new_name new_inode dir_de = r at henter
  obtain ⟨d2, _ | e⟩ := r
  · refine henter.trans (henter.books.rename_source (henter.hasTree hold) (fun hsome => ?_) old_de)
    obtain ⟨de, rfl⟩ := Option.isSome_iff_exists.mp hsome
    exact henter.hasTree (htree old_de de rfl)
  · exact henter

end Rename

end Calls

end GasFs
