/-
# `free_data` and `free_branches`

The two functions that give blocks back.  Both run over a range of pointer cells; what one cell
does is `free_cell`, and the functions are folds of it.

`Detached` says when a range of cells may be cut off: the trees below the cells are disjoint and
none of them holds the block a cell lies in.  `Freed` says what is left afterwards: the cells are
null, exactly the blocks below them were given back, and nothing else changed.  The theorem is
`free_branches_freed`, by induction on the depth and, for each depth, along the range.

A failed buffer read leaves the blocks below it allocated; all of `Freed` holds then too, except
that the blocks below the cells need not all have been given back (`Freed.exact`).

The three parts of `Detached` are what the recursion consumes.  Along a range, freeing one cell must
not disturb the trees below the others, so these are disjoint; downwards, the entries of a block
must not share a block and none of them may lead back to the block, so the tree below a cell is
proper; and no cell of the range lies in a block below another cell, for then it would be
overwritten after it was zeroed.

A block is given back after the blocks below it.  While its entries are freed it is still marked, so
nobody else can have been given it.
-/
import GasFs.Itree.Paths
import Mathlib.Data.List.Nodup

namespace GasFs

open PtrTree

/-! ## 1. Cells

A store changes the cell and nothing else of the volume or the inode. -/

@[simp] theorem load_store_self (c : Ctx) (p : Cell) (x : Nat) : (c.store p x).load p = x := by
  cases p <;> simp [Ctx.store, Ctx.load, write_word]

theorem load_store_ne {c : Ctx} {p q : Cell} {x : Nat} (h : q ≠ p) :
    (c.store p x).load q = c.load q := by
  cases p with
  | idata i =>
    cases q with
    | idata j =>
      have : j ≠ i := fun e => h (e ▸ rfl)
      simp [Ctx.store, Ctx.load, Function.update_of_ne this]
    | blk b j => rfl
    | nr => rfl
  | blk b i =>
    cases q with
    | idata j => rfl
    | blk b' j =>
      have : ¬(b' = b ∧ j = i) := fun ⟨e1, e2⟩ => h (e1 ▸ e2 ▸ rfl)
      simp [Ctx.store, Ctx.load, write_word, this]
    | nr => rfl
  | nr =>
    cases q with
    | idata j => rfl
    | blk b j => rfl
    | nr => exact absurd rfl h

theorem load_store (c : Ctx) (p q : Cell) (x : Nat) :
    (c.store p x).load q = if q = p then x else c.load q := by
  by_cases h : q = p
  · rw [if_pos h, h, load_store_self]
  · rw [if_neg h, load_store_ne h]

theorem store_blockStep (c : Ctx) (p : Cell) (x : Nat) : BlockStep c.v (c.store p x).v := by
  cases p with
  | blk b i => exact ⟨c.v.bam, c.v.s_bam_last, write_word c.v.words b i x, c.v.tick, rfl⟩
  | idata i => exact BlockStep.refl _
  | nr => exact BlockStep.refl _

@[simp] theorem store_inUse (c : Ctx) (p : Cell) (x b : Nat) :
    (c.store p x).v.inUse b = c.v.inUse b := by
  cases p <;> rfl

/-- A step of a function on the tree changes `blkaddr` and nothing else of the inode.  Size, times
and link count are not read either. -/
def SameInode (i i' : Inode) : Prop := i' = { i with blkaddr := i'.blkaddr }

theorem SameInode.refl (i : Inode) : SameInode i i := rfl

theorem SameInode.trans {i i' i'' : Inode} (h : SameInode i i') (h' : SameInode i' i'') :
    SameInode i i'' := by
  rw [SameInode] at h h' ⊢
  rw [h', h]

theorem store_sameInode (c : Ctx) (p : Cell) (x : Nat) : SameInode c.inode (c.store p x).inode := by
  cases p <;> rfl

theorem mem_block_cells {b i j : Nat} {p : Cell} :
    p ∈ block_cells b i j ↔ ∃ k, i ≤ k ∧ k < j ∧ p = .blk b k := by
  simp only [block_cells, List.mem_map, List.mem_range'_1]
  constructor
  · rintro ⟨k, hk, rfl⟩; exact ⟨k, hk.1, by omega, rfl⟩
  · rintro ⟨k, hk, hk', rfl⟩; exact ⟨k, ⟨hk, by omega⟩, rfl⟩

theorem mem_idata_cells {i j : Nat} {p : Cell} :
    p ∈ idata_cells i j ↔ ∃ k, i ≤ k ∧ k < j ∧ p = .idata k := by
  simp only [idata_cells, List.mem_map, List.mem_range'_1]
  constructor
  · rintro ⟨k, hk, rfl⟩; exact ⟨k, hk.1, by omega, rfl⟩
  · rintro ⟨k, hk, hk', rfl⟩; exact ⟨k, ⟨hk, by omega⟩, rfl⟩

theorem block_cells_nodup (b i j : Nat) : (block_cells b i j).Nodup := by
  refine List.Nodup.map (fun k l h => ?_) List.nodup_range'
  exact (Cell.blk.inj h).2

theorem idata_cells_nodup (i j : Nat) : (idata_cells i j).Nodup := by
  refine List.Nodup.map (fun k l h => ?_) List.nodup_range'
  exact Cell.idata.inj h

/-! ## 2. Cutting off a range of cells

What must hold before, and what holds afterwards. -/

/-- The blocks at and below the cells.  For cells of height 0 these are the data blocks
themselves. -/
def Below (c : Ctx) (d : Nat) (ps : List Cell) : Set Nat :=
  {b | ∃ p ∈ ps, b ∈ Region c.v.words 1024 d (c.load p)}

theorem mem_below_cons {c : Ctx} {d : Nat} {p : Cell} {ps : List Cell} {b : Nat} :
    b ∈ Below c d (p :: ps) ↔ b ∈ Region c.v.words 1024 d (c.load p) ∨ b ∈ Below c d ps := by
  constructor
  · rintro ⟨q, hq, hb⟩
    rcases List.mem_cons.mp hq with rfl | hq
    · exact Or.inl hb
    · exact Or.inr ⟨q, hq, hb⟩
  · rintro (hb | ⟨q, hq, hb⟩)
    · exact ⟨p, by simp, hb⟩
    · exact ⟨q, List.mem_cons_of_mem _ hq, hb⟩

/-- When a range of cells of height `d` may be cut off: the cells differ, the trees below them are
proper and apart from each other, and none of them contains a block in which a cell of the range
lies.  A range of cells of one height in a sound tree has this. -/
structure Detached (c : Ctx) (d : Nat) (ps : List Cell) : Prop where
  nodup : ps.Nodup
  proper : ∀ p ∈ ps, Proper c.v.words 1024 d (c.load p)
  disj : ∀ p ∈ ps, ∀ q ∈ ps, p ≠ q →
    Disjoint (Region c.v.words 1024 d (c.load p)) (Region c.v.words 1024 d (c.load q))
  apart : ∀ b i, Cell.blk b i ∈ ps → b ∉ Below c d ps
  zone : ∀ b ∈ Below c d ps, c.v.InZone b

/-- What is left when the cells have been freed.  Only blocks below the cells were given back; all
of them were, if every read succeeded.  The marks of all other blocks and the words of all cells
outside are as before. -/
structure Freed (d : Nat) (ps : List Cell) (c c' : Ctx) : Prop where
  vol : BlockStep c.v c'.v
  inode : SameInode c.inode c'.inode
  null : ∀ p ∈ ps, c'.load p = 0
  frame : ∀ p, p ∉ ps → (∀ b i, p = .blk b i → b ∉ Below c d ps) → c'.load p = c.load p
  marks : ∀ b, b ∉ Below c d ps → c'.v.inUse b = c.v.inUse b
  mono : ∀ b, c'.v.inUse b = true → c.v.inUse b = true
  exact : (∀ n, c.v.env.bread n = true) → ∀ b ∈ Below c d ps, c'.v.inUse b = false

theorem Freed.nil (d : Nat) (c : Ctx) : Freed d [] c c where
  vol := BlockStep.refl _
  inode := SameInode.refl _
  null := by simp
  frame _ _ _ := rfl
  marks _ _ := rfl
  mono _ h := h
  exact := by rintro - b ⟨p, hp, -⟩; simp at hp

/-- Freeing one cell does not disturb the trees below the others. -/
theorem Freed.words_below {d : Nat} {p : Cell} {ps : List Cell} {c c' : Ctx}
    (hD : Detached c d (p :: ps)) (hF : Freed d [p] c c') :
    ∀ q ∈ ps, c'.load q = c.load q ∧
      ∀ b ∈ Region c.v.words 1024 d (c.load q), ∀ j < 1024, c'.v.words b j = c.v.words b j := by
  intro q hq
  have hp : p ∉ ps := (List.nodup_cons.mp hD.nodup).1
  have hqp : q ≠ p := fun e => hp (e ▸ hq)
  have hqmem : q ∈ p :: ps := List.mem_cons_of_mem _ hq
  have hone : ∀ b, b ∈ Below c d [p] ↔ b ∈ Region c.v.words 1024 d (c.load p) := fun b => by
    rw [mem_below_cons]
    exact or_iff_left (by rintro ⟨r, hr, -⟩; simp at hr)
  refine ⟨?_, fun b hb j _ => ?_⟩
  · refine hF.frame q (by simpa using hqp) ?_
    rintro b i rfl hb
    exact hD.apart b i hqmem (mem_below_cons.mpr (Or.inl ((hone b).mp hb)))
  · refine hF.frame (.blk b j) ?_ ?_
    · -- the block of the cell `p` is in no tree of the range
      intro he
      have he : Cell.blk b j = p := by simpa using he
      exact hD.apart b j (by rw [he]; simp) ⟨q, hqmem, hb⟩
    · rintro b' i he hb'
      obtain ⟨rfl, -⟩ : b = b' ∧ j = i := by simpa using he
      exact Set.disjoint_left.mp (hD.disj q hqmem p (by simp) hqp) hb ((hone b).mp hb')

theorem Freed.below_eq {d : Nat} {p : Cell} {ps : List Cell} {c c' : Ctx}
    (hD : Detached c d (p :: ps)) (hF : Freed d [p] c c') : Below c' d ps = Below c d ps := by
  have hw := hF.words_below hD
  ext b
  constructor
  · rintro ⟨q, hq, hb⟩
    rw [(hw q hq).1, region_congr (hw q hq).2] at hb
    exact ⟨q, hq, hb⟩
  · rintro ⟨q, hq, hb⟩
    refine ⟨q, hq, ?_⟩
    rw [(hw q hq).1, region_congr (hw q hq).2]
    exact hb

/-- What remains of the range may still be cut off.  The trees below the remaining cells have lost
nothing, as they were disjoint from the one freed. -/
theorem Freed.detached {d : Nat} {p : Cell} {ps : List Cell} {c c' : Ctx}
    (hD : Detached c d (p :: ps)) (hF : Freed d [p] c c') : Detached c' d ps where
  nodup := (List.nodup_cons.mp hD.nodup).2
  proper q hq := by
    have hw := hF.words_below hD q hq
    rw [hw.1]
    exact (hD.proper q (List.mem_cons_of_mem _ hq)).congr hw.2
  disj q hq r hr hne := by
    have hw := hF.words_below hD
    rw [(hw q hq).1, (hw r hr).1, region_congr (hw q hq).2, region_congr (hw r hr).2]
    exact hD.disj q (List.mem_cons_of_mem _ hq) r (List.mem_cons_of_mem _ hr) hne
  apart b i hb hbel := by
    rw [hF.below_eq hD] at hbel
    exact hD.apart b i (List.mem_cons_of_mem _ hb) (mem_below_cons.mpr (Or.inr hbel))
  zone b hb := by
    rw [hF.below_eq hD] at hb
    exact (hF.vol.inZone b).mpr (hD.zone b (mem_below_cons.mpr (Or.inr hb)))

theorem Detached.head {d : Nat} {p : Cell} {ps : List Cell} {c : Ctx}
    (hD : Detached c d (p :: ps)) : Detached c d [p] where
  nodup := by simp
  proper q hq := hD.proper q (by rw [List.mem_singleton.mp hq]; simp)
  disj q hq r hr hne := absurd ((List.mem_singleton.mp hq).trans (List.mem_singleton.mp hr).symm) hne
  apart b i hb hbel := by
    refine hD.apart b i (by rw [← List.mem_singleton.mp hb]; simp) ?_
    exact mem_below_cons.mpr ((mem_below_cons.mp hbel).imp_right fun ⟨q, hq, _⟩ => by simp at hq)
  zone b hb := hD.zone b
    (mem_below_cons.mpr ((mem_below_cons.mp hb).imp_right fun ⟨q, hq, _⟩ => by simp at hq))

/-- One cell and then the rest of the range.  The blocks below the rest are the same before and
after the first cell was freed. -/
theorem Freed.cons {d : Nat} {p : Cell} {ps : List Cell} {c c' c'' : Ctx}
    (hD : Detached c d (p :: ps)) (h : Freed d [p] c c') (h' : Freed d ps c' c'') :
    Freed d (p :: ps) c c'' := by
  have hbel := h.below_eq hD
  have hone : ∀ b, b ∈ Below c d [p] → b ∈ Below c d (p :: ps) := fun b hb =>
    mem_below_cons.mpr ((mem_below_cons.mp hb).imp_right fun ⟨q, hq, _⟩ => by simp at hq)
  have hrest : ∀ b, b ∈ Below c' d ps → b ∈ Below c d (p :: ps) := fun b hb =>
    mem_below_cons.mpr (Or.inr (hbel ▸ hb))
  refine ⟨h.vol.trans h'.vol, h.inode.trans h'.inode, ?_, ?_, ?_, ?_, ?_⟩
  · intro q hq
    rcases List.mem_cons.mp hq with rfl | hq
    · have hp : q ∉ ps := (List.nodup_cons.mp hD.nodup).1
      rw [h'.frame q hp ?_, h.null q (by simp)]
      rintro b i rfl hb
      exact hD.apart b i (by simp) (hrest b hb)
    · exact h'.null q hq
  · intro q hq hqb
    rw [List.mem_cons, not_or] at hq
    rw [h'.frame q hq.2 fun b i e hb => hqb b i e (hrest b hb),
      h.frame q (by simpa using hq.1) fun b i e hb => hqb b i e (hone b hb)]
  · intro b hb
    rw [h'.marks b fun hb' => hb (hrest b hb'), h.marks b fun hb' => hb (hone b hb')]
  · exact fun b hb => h.mono b (h'.mono b hb)
  · intro hio b hb
    have hio' : ∀ n, c'.v.env.bread n = true := by rw [h.vol.env]; exact hio
    rcases mem_below_cons.mp hb with hb | hb
    · have hf := h.exact hio b (mem_below_cons.mpr (Or.inl hb))
      by_contra hne
      rw [h'.mono b (by simpa using hne)] at hf
      exact Bool.false_ne_true hf.symm
    · exact h'.exact hio' b (hbel ▸ hb)

/-! ## 3. The two functions as folds

The source runs the loops with pointers; here the range is a list. -/

/-- One round of the loop of `free_branches` at depth `d`, and of `free_data` at depth 0.  It reads
the pointer, zeroes the cell, deals with the entries of the block, and frees the block. -/
def free_cell (d : Nat) (c : Ctx) (p : Cell) : Ctx :=
  let nr := c.load p
  if nr = 0 then c
  else
    let c := c.store p 0
    match d with
    | 0 => { c with v := gas_free_block c.v nr }
    | d + 1 =>
      match sb_bread c.v with
      | (false, v) => { c with v := v }
      | (true, v) =>
        let c := free_branches d { c with v := v } (block_cells nr 0 (INDIRCOUNT c.v))
        { c with v := gas_free_block c.v nr }

theorem free_branches_eq_foldl (d : Nat) (c : Ctx) (ps : List Cell) :
    free_branches d c ps = ps.foldl (free_cell d) c := by
  cases d <;> rfl

/-- If each cell is freed correctly, the fold frees the range.  The hypothesis is asked for any
state, because each round begins in the state the last one left. -/
theorem foldl_free_cell_freed {d : Nat}
    (hone : ∀ c p, Geometry c.v → Detached c d [p] → Freed d [p] c (free_cell d c p)) :
    ∀ (ps : List Cell) (c : Ctx), Geometry c.v → Detached c d ps →
      Freed d ps c (ps.foldl (free_cell d) c)
  | [], c, _, _ => Freed.nil d c
  | p :: ps, c, hg, hD => by
    have h1 := hone c p hg hD.head
    have h2 := foldl_free_cell_freed hone ps (free_cell d c p) (h1.vol.geometry hg) (h1.detached hD)
    exact h1.cons hD h2

/-! ## 4. One cell

A null cell, a cell of a data block, and a cell of an indirect block that can or cannot be read. -/

/-- The pointer that is unlinked first. -/
theorem free_cell_null {d : Nat} {c : Ctx} {p : Cell} (h : c.load p = 0) :
    Freed d [p] c (free_cell d c p) := by
  have hc : free_cell d c p = c := by simp [free_cell, h]
  have hb : Below c d [p] = ∅ := by
    ext b
    simp only [Below, List.mem_singleton, exists_eq_left, h, region_zero]
    rfl
  rw [hc]
  exact ⟨BlockStep.refl _, SameInode.refl _, by simpa using h, fun _ _ _ => rfl, fun _ _ => rfl,
    fun _ h => h, fun _ b hb' => by rw [hb] at hb'; exact hb'.elim⟩

theorem mem_below_singleton {c : Ctx} {d : Nat} {p : Cell} {b : Nat} :
    b ∈ Below c d [p] ↔ b ∈ Region c.v.words 1024 d (c.load p) := by
  rw [mem_below_cons]
  exact or_iff_left (by rintro ⟨r, hr, -⟩; simp at hr)

/-- `gas_free_block` as the last step of freeing a pointer. -/
theorem load_with_free (c : Ctx) (b : Nat) (p : Cell) :
    Ctx.load { c with v := gas_free_block c.v b } p = c.load p := by
  cases p <;> simp [Ctx.load, gas_free_block_words]

theorem free_cell_zero {c : Ctx} {p : Cell} (hg : Geometry c.v) (hD : Detached c 0 [p]) :
    Freed 0 [p] c (free_cell 0 c p) := by
  by_cases hz : c.load p = 0
  · exact free_cell_null hz
  have hbel : ∀ b, b ∈ Below c 0 [p] ↔ b = c.load p := fun b => by
    rw [mem_below_singleton, region_height_zero hz]; rfl
  have hzone : c.v.InZone (c.load p) := hD.zone _ ((hbel _).mpr rfl)
  have hst := store_blockStep c p 0
  have hgs := hst.geometry hg
  have heq : free_cell 0 c p = { c.store p 0 with v := gas_free_block (c.store p 0).v (c.load p) } := by
    simp [free_cell, hz]
  have huse : ∀ b, (gas_free_block (c.store p 0).v (c.load p)).inUse b =
      if b = c.load p then false else c.v.inUse b := fun b => by
    rw [inUse_gas_free_block hgs.map, store_inUse]
    simp [(hst.inZone _).mpr hzone]
  rw [heq]
  refine ⟨hst.trans (gas_free_block_blockStep _ _), store_sameInode c p 0, ?_, ?_, ?_, ?_, ?_⟩
  · intro q hq
    rw [List.mem_singleton.mp hq, load_with_free, load_store_self]
  · intro q hq _
    rw [load_with_free, load_store_ne (by simpa using hq)]
  · intro b hb
    rw [huse, if_neg fun e => hb ((hbel b).mpr e)]
  · intro b hb
    rw [huse] at hb
    split at hb
    · exact absurd hb (by simp)
    · exact hb
  · intro _ b hb
    rw [huse, if_pos ((hbel b).mp hb)]

/-- The entries of the block that a cell points at, once the cell itself is null.  The entries of
one block differ, and what is below them is part of what was below the cell. -/
theorem Detached.entries {d : Nat} {c : Ctx} {p : Cell} (hz : c.load p ≠ 0)
    (hD : Detached c (d + 1) [p]) :
    (∀ b ∈ Region c.v.words 1024 (d + 1) (c.load p), ∀ j, (c.store p 0).v.words b j = c.v.words b j) ∧
      Detached (c.store p 0) d (block_cells (c.load p) 0 1024) := by
  have hself : c.load p ∈ Region c.v.words 1024 (d + 1) (c.load p) := mem_region_self hz
  have hw : ∀ b ∈ Region c.v.words 1024 (d + 1) (c.load p), ∀ j,
      (c.store p 0).v.words b j = c.v.words b j := by
    intro b hb j
    refine load_store_ne (q := .blk b j) ?_
    rintro rfl
    exact hD.apart b j (by simp) (mem_below_singleton.mpr hb)
  have hP := hD.proper p (by simp)
  have hin : ∀ {j b}, j < 1024 → b ∈ Region c.v.words 1024 d (c.v.words (c.load p) j) →
      b ∈ Region c.v.words 1024 (d + 1) (c.load p) := fun hj hb =>
    (mem_region_succ hz).mpr (Or.inr ⟨_, hj, hb⟩)
  have hreg : ∀ j < 1024, Region (c.store p 0).v.words 1024 d (c.v.words (c.load p) j) =
      Region c.v.words 1024 d (c.v.words (c.load p) j) := fun j hj =>
    region_congr fun b hb i _ => hw b (hin hj hb) i
  have hload : ∀ j, (c.store p 0).load (.blk (c.load p) j) = c.v.words (c.load p) j := fun j =>
    hw _ hself j
  have hbel : ∀ b, b ∈ Below (c.store p 0) d (block_cells (c.load p) 0 1024) →
      ∃ j < 1024, b ∈ Region c.v.words 1024 d (c.v.words (c.load p) j) := by
    rintro b ⟨q, hq, hb⟩
    obtain ⟨j, -, hj, rfl⟩ := mem_block_cells.mp hq
    rw [hload, hreg j hj] at hb
    exact ⟨j, hj, hb⟩
  refine ⟨hw, block_cells_nodup _ _ _, ?_, ?_, ?_, ?_⟩
  · intro q hq
    obtain ⟨j, -, hj, rfl⟩ := mem_block_cells.mp hq
    rw [hload]
    exact (hP.child hz hj).congr fun b hb i _ => hw b (hin hj hb) i
  · intro q hq r hr hne
    obtain ⟨j, -, hj, rfl⟩ := mem_block_cells.mp hq
    obtain ⟨k, -, hk, rfl⟩ := mem_block_cells.mp hr
    rw [hload, hload, hreg j hj, hreg k hk]
    exact hP.disjoint hz hj hk fun e => hne (e ▸ rfl)
  · intro b i hb hb'
    obtain ⟨k, -, hk, he⟩ := mem_block_cells.mp hb
    obtain ⟨rfl, -⟩ : b = c.load p ∧ i = k := by simpa using he
    obtain ⟨j, hj, hbj⟩ := hbel _ hb'
    exact hP.notMem_child hz hj hbj
  · intro b hb
    obtain ⟨j, hj, hbj⟩ := hbel b hb
    exact ((store_blockStep c p 0).inZone b).mpr
      (hD.zone b (mem_below_singleton.mpr (hin hj hbj)))

theorem load_withTick (c : Ctx) (t : Nat) (p : Cell) :
    Ctx.load { c with v := { c.v with tick := t } } p = c.load p := by
  cases p <;> rfl

theorem Detached.withTick {c : Ctx} {d : Nat} {ps : List Cell} (h : Detached c d ps) (t : Nat) :
    Detached { c with v := { c.v with tick := t } } d ps := by
  have hbel : Below { c with v := { c.v with tick := t } } d ps = Below c d ps := by
    simp only [Below, load_withTick]
  refine ⟨h.nodup, ?_, ?_, ?_, ?_⟩
  · simpa only [load_withTick] using h.proper
  · simpa only [load_withTick] using h.disj
  · rw [hbel]; exact h.apart
  · rw [hbel]; exact h.zone

section Succ

variable {d : Nat} {c c1 : Ctx} {p : Cell}

/-- An indirect block that cannot be read: the pointer is gone, and the blocks below it stay
marked. -/
theorem free_cell_unread (hz : c.load p ≠ 0)
    (hr : (c.store p 0).v.env.bread (c.store p 0).v.tick = false) :
    Freed (d + 1) [p] c (free_cell (d + 1) c p) := by
  have hst := store_blockStep c p 0
  have heq : free_cell (d + 1) c p =
      { c.store p 0 with v := { (c.store p 0).v with tick := (c.store p 0).v.tick + 1 } } := by
    simp [free_cell, hz, sb_bread, hr]
  rw [heq]
  refine ⟨hst.trans ⟨_, _, _, _, rfl⟩, store_sameInode c p 0, ?_, ?_, ?_, ?_, ?_⟩
  · intro q hq
    rw [List.mem_singleton.mp hq, load_withTick, load_store_self]
  · intro q hq _
    rw [load_withTick, load_store_ne (by simpa using hq)]
  · exact fun b _ => store_inUse c p 0 b
  · exact fun b hb => (store_inUse c p 0 b) ▸ hb
  · intro hio
    rw [hst.env, hio] at hr
    exact absurd hr (by simp)

/-- What lies below a cell is its block and what lies below the entries of the block, which may be
read off once the cell itself is null. -/
theorem Detached.mem_below (hz : c.load p ≠ 0) (hD : Detached c (d + 1) [p])
    (hload : ∀ q, c1.load q = (c.store p 0).load q) (hwords : c1.v.words = (c.store p 0).v.words)
    (b : Nat) : b ∈ Below c (d + 1) [p] ↔
      b = c.load p ∨ b ∈ Below c1 d (block_cells (c.load p) 0 1024) := by
  obtain ⟨hw, -⟩ := hD.entries hz
  have hentry : ∀ j, c1.load (.blk (c.load p) j) = c.v.words (c.load p) j := fun j => by
    rw [hload]
    exact hw _ (mem_region_self hz) j
  have hreg : ∀ j < 1024, Region c1.v.words 1024 d (c.v.words (c.load p) j) =
      Region c.v.words 1024 d (c.v.words (c.load p) j) := fun j hj =>
    region_congr fun b hb i _ => by
      rw [hwords]
      exact hw b ((mem_region_succ hz).mpr (Or.inr ⟨j, hj, hb⟩)) i
  rw [mem_below_singleton, mem_region_succ hz]
  refine or_congr_right ⟨?_, ?_⟩
  · rintro ⟨j, hj, hb⟩
    refine ⟨_, mem_block_cells.mpr ⟨j, Nat.zero_le _, hj, rfl⟩, ?_⟩
    rw [hentry, hreg j hj]
    exact hb
  · rintro ⟨q, hq, hb⟩
    obtain ⟨j, -, hj, rfl⟩ := mem_block_cells.mp hq
    rw [hentry, hreg j hj] at hb
    exact ⟨j, hj, hb⟩

/-- The entries of the block were freed, and then the block itself is.  The block was no entry of
itself, so its words could be read to the end. -/
theorem Freed.free_block {c2 : Ctx} (hg : Geometry c.v) (hz : c.load p ≠ 0)
    (hD : Detached c (d + 1) [p]) (hload : ∀ q, c1.load q = (c.store p 0).load q)
    (hwords : c1.v.words = (c.store p 0).v.words) (hstep : BlockStep c.v c1.v)
    (hinode : SameInode c.inode c1.inode) (huse1 : ∀ b, c1.v.inUse b = c.v.inUse b)
    (hF : Freed d (block_cells (c.load p) 0 1024) c1 c2) :
    Freed (d + 1) [p] c { c2 with v := gas_free_block c2.v (c.load p) } := by
  have hreg := hD.mem_below hz hload hwords
  have hzone : c.v.InZone (c.load p) := hD.zone _ ((hreg _).mpr (Or.inl rfl))
  have hg2 := hF.vol.geometry (hstep.geometry hg)
  have huse : ∀ b, (gas_free_block c2.v (c.load p)).inUse b =
      if b = c.load p then false else c2.v.inUse b := fun b => by
    rw [inUse_gas_free_block hg2.map]
    simp [(hF.vol.inZone _).mpr ((hstep.inZone _).mpr hzone)]
  refine ⟨hstep.trans (hF.vol.trans (gas_free_block_blockStep _ _)), hinode.trans hF.inode,
    ?_, ?_, ?_, ?_, ?_⟩
  · -- the cell is none of the entries, which lie in a block below it
    intro q hq
    rw [List.mem_singleton.mp hq, load_with_free, hF.frame p, hload, load_store_self]
    · intro hp
      obtain ⟨j, -, -, he⟩ := mem_block_cells.mp hp
      exact hD.apart _ j (List.mem_singleton.mpr he.symm)
        (mem_below_singleton.mpr (mem_region_self hz))
    · intro b i e hb
      exact hD.apart b i (by rw [e]; simp) ((hreg b).mpr (Or.inr hb))
  · intro q hq hqb
    rw [load_with_free, hF.frame q, hload, load_store_ne (by simpa using hq)]
    · intro hq'
      obtain ⟨j, -, -, he⟩ := mem_block_cells.mp hq'
      exact hqb _ _ he ((hreg _).mpr (Or.inl rfl))
    · exact fun b i e hb => hqb b i e ((hreg b).mpr (Or.inr hb))
  · intro b hb
    rw [huse, if_neg fun e => hb ((hreg b).mpr (Or.inl e)),
      hF.marks b fun hb' => hb ((hreg b).mpr (Or.inr hb')), huse1]
  · intro b hb
    rw [huse] at hb
    split at hb
    · exact absurd hb (by simp)
    · rw [← huse1]
      exact hF.mono b hb
  · intro hio b hb
    rw [huse]
    split
    · rfl
    · next hne =>
      rcases (hreg b).mp hb with e | hb
      · exact absurd e hne
      · exact hF.exact (by rw [hstep.env]; exact hio) b hb

/-- The step from one depth to the next: the entries of the block are freed first, then the block
itself.  If the block cannot be read, only the pointer is gone. -/
theorem free_cell_succ
    (ih : ∀ c ps, Geometry c.v → Detached c d ps → Freed d ps c (free_branches d c ps))
    (hg : Geometry c.v) (hD : Detached c (d + 1) [p]) :
    Freed (d + 1) [p] c (free_cell (d + 1) c p) := by
  by_cases hz : c.load p = 0
  · exact free_cell_null hz
  cases hr : (c.store p 0).v.env.bread (c.store p 0).v.tick with
  | false => exact free_cell_unread hz hr
  | true =>
    obtain ⟨-, hent⟩ := hD.entries hz
    have hst := store_blockStep c p 0
    have hin : INDIRCOUNT (c.store p 0).v = 1024 := (hst.geometry hg).indircount
    -- the words of the store, read once more through a buffer
    let c1 : Ctx := { c.store p 0 with v := { (c.store p 0).v with tick := (c.store p 0).v.tick + 1 } }
    have hstep : BlockStep c.v c1.v := hst.trans ⟨_, _, _, _, rfl⟩
    have hF := ih c1 _ (hstep.geometry hg) (hent.withTick _)
    have heq : free_cell (d + 1) c p = { free_branches d c1 (block_cells (c.load p) 0 1024) with
        v := gas_free_block (free_branches d c1 (block_cells (c.load p) 0 1024)).v (c.load p) } := by
      simp [free_cell, hz, sb_bread, hr, hin, c1]
    have hload : ∀ q, c1.load q = (c.store p 0).load q := fun q => load_withTick _ _ q
    rw [heq]
    exact hF.free_block hg hz hD hload rfl hstep (store_sameInode c p 0) fun b => store_inUse c p 0 b

end Succ

/-- **`free_branches` gives back exactly the blocks at and below its cells** and leaves the cells
null and everything else alone; with failing reads it gives back no other block.  The induction is
on the depth, and for each depth the range is a fold. -/
theorem free_branches_freed : ∀ (d : Nat) (c : Ctx) (ps : List Cell), Geometry c.v →
    Detached c d ps → Freed d ps c (free_branches d c ps)
  | 0, c, ps, hg, hD => by
    rw [free_branches_eq_foldl]
    exact foldl_free_cell_freed (fun _ _ => free_cell_zero) ps c hg hD
  | d + 1, c, ps, hg, hD => by
    rw [free_branches_eq_foldl]
    exact foldl_free_cell_freed
      (fun _ _ => free_cell_succ fun c ps => free_branches_freed d c ps) ps c hg hD

end GasFs
