/-
# Cutting subtrees off

`free_branches` seen from the tree: `TreeOk` says that the block tree of an inode is sound, a
cell of the tree is named by its path (`IsCell`), and `Cut Z c c'` says that `c'` is left when
the slots in `Z` are freed, each with everything below it.  Cuts compose (`Cut.trans`), and
freeing a range of cells of one height is a cut at their paths (`cut_free_branches`).

The tree is also cut by moving a pointer into `nr` first (`free_moved_eq`), which is how
`gas_truncate_inode` frees a whole subtree.

Both notions of soundness are about one tree.  They say that a pointer stands in one slot only, that
it is a data block, and that its bit in the map is set; a bit that is set need not belong to this
tree, so other files and calls in progress do not disturb it.

`Cut Z` describes the result by the slots that were freed and not by the order in which it was done.
`gas_truncate_inode` frees its ranges from the deepest block up and the moved pointer somewhere in
between; each piece is a cut at its slots, and `Cut.trans` puts them together.
-/
import GasFs.Itree.Free

namespace GasFs

open PtrTree

/-! ## 1. Sound trees

Two notions, one for each range of results.  `TreeSound` is all that looking up and allocating need,
and it is said for every block size a mount can have.  `TreeOk` adds the geometry of `mkfs.gas`; the
results on freeing are about it, because they count the pointers of a block. -/

/-- **A sound block tree, whatever the block size**: no pointer is stored twice, every pointer is a
data block and is marked, and the bits of the block map that are no data block's are set.  Where a
block has fewer than 1024 pointers, the words behind them count as null. -/
structure TreeSound (c : Ctx) : Prop where
  geometry : MapGeometry c.v
  padded : c.v.MapPadded
  one : OneHolder shape c.v.words c.inode.blkaddr
  zone : ∀ q, shape.IsPath q → c.val q ≠ 0 → c.v.InZone (c.val q)
  used : ∀ q, shape.IsPath q → c.val q ≠ 0 → c.v.inUse (c.val q) = true

/-- **A sound block tree** of a volume that `mkfs.gas` made: no pointer is stored twice, every
pointer is a data block and is marked, and the bits of the block map that are no data block's are
set. -/
structure TreeOk (c : Ctx) : Prop where
  geometry : TreeGeometry c.v
  padded : c.v.MapPadded
  one : OneHolder shape c.v.words c.inode.blkaddr
  zone : ∀ q, shape.IsPath q → c.val q ≠ 0 → c.v.InZone (c.val q)
  used : ∀ q, shape.IsPath q → c.val q ≠ 0 → c.v.inUse (c.val q) = true

theorem TreeOk.sound {c : Ctx} (h : TreeOk c) : TreeSound c where
  geometry := h.geometry.map
  padded := h.padded
  one := h.one
  zone := h.zone
  used := h.used

theorem TreeSound.treeOk {c : Ctx} (h : TreeSound c) (hg : TreeGeometry c.v) : TreeOk c where
  geometry := hg
  padded := h.padded
  one := h.one
  zone := h.zone
  used := h.used

/-- The height of the tree below a slot: the number of indirect blocks that a path through it may
still pass.  A slot at the end of a path has rank 0, and the block it names is data. -/
def rank (q : List Nat) : Nat := q.headD 0 - 5 + 1 - q.length

theorem isPath_append {q r : List Nat} (hq : shape.IsPath q) :
    shape.IsPath (q ++ r) ↔ IsBelow 1024 (rank q) r := by
  cases q with
  | nil => exact hq.elim
  | cons i s =>
    obtain ⟨hi, hlen, hlt⟩ := isPath_cons.mp hq
    rw [List.cons_append, isPath_cons]
    simp only [IsBelow, rank, List.headD_cons, List.length_cons, List.length_append,
      List.mem_append]
    constructor
    · rintro ⟨-, hl, hj⟩
      exact ⟨by omega, fun j hm => hj j (Or.inr hm)⟩
    · rintro ⟨hl, hj⟩
      exact ⟨hi, by omega, fun j hm => hm.elim (hlt j) (hj j)⟩

theorem rank_append {q r : List Nat} (hq : q ≠ []) : rank (q ++ r) = rank q - r.length := by
  cases q with
  | nil => exact absurd rfl hq
  | cons i s =>
    simp only [rank, List.cons_append, List.headD_cons, List.length_cons, List.length_append]
    omega

theorem take_append_getElem {o : List Nat} {l x : Nat} (h : o[l]? = some x) :
    o.take (l + 1) = o.take l ++ [x] := by
  rw [List.take_add_one, h]
  rfl

theorem rank_take {o : List Nat} (ho : IsLeaf o) {l : Nat} (hl : 1 ≤ l) (hlo : l ≤ o.length) :
    rank (o.take l) = o.length - l := by
  obtain ⟨-, hlen⟩ := ho
  cases o with
  | nil => simp only [List.length_nil] at hlo; omega
  | cons i r =>
    obtain ⟨l, rfl⟩ : ∃ m, l = m + 1 := ⟨l - 1, by omega⟩
    simp only [List.headD_cons, List.length_cons] at hlen hlo
    simp only [rank, List.take_succ_cons, List.headD_cons, List.length_cons, List.length_take]
    omega

theorem isPath_take {o : List Nat} (ho : shape.IsPath o) {l : Nat} (hl : 1 ≤ l)
    (hlo : l ≤ o.length) : shape.IsPath (o.take l) := by
  have h : shape.IsPath (o.take l ++ o.drop l) := by rw [List.take_append_drop]; exact ho
  refine h.left (List.ne_nil_of_length_pos ?_)
  rw [List.length_take]
  omega

/-- The region below a slot, in terms of paths. -/
theorem mem_region_val {c : Ctx} {q : List Nat} (hq : shape.IsPath q) {b : Nat} :
    b ∈ Region c.v.words 1024 (rank q) (c.val q) ↔
      b ≠ 0 ∧ ∃ r, shape.IsPath (q ++ r) ∧ c.val (q ++ r) = b := by
  simp only [Region, Set.mem_ofPred_eq, Ctx.val, isPath_append hq, val_append hq.ne_nil]

/-! ## 2. The cell of a path

A cell is where a pointer is stored, a path is its name in the tree.  In a sound tree the two
correspond. -/

/-- The cell in which the pointer named by a path is stored: a slot of the inode, or an entry of the
block that the rest of the path leads to, if that is there.  It depends on the values of the slots
above, so a cut may take the cell of a path away. -/
inductive IsCell (c : Ctx) : List Nat → Cell → Prop
  | root (i : Nat) : IsCell c [i] (.idata i)
  | entry (q : List Nat) (j : Nat) (hq : q ≠ []) (hne : c.val q ≠ 0) :
      IsCell c (q ++ [j]) (.blk (c.val q) j)

theorem IsCell.load {c : Ctx} {q : List Nat} {p : Cell} (h : IsCell c q p) :
    c.load p = c.val q := by
  cases h with
  | root i => rfl
  | entry q j hq hne =>
    have he : c.val (q ++ [j]) = if c.val q = 0 then 0 else c.v.words (c.val q) j := val_concat hq j
    rw [he, if_neg hne]
    rfl

theorem isCell_idata_iff {c : Ctx} {q : List Nat} {i : Nat} : IsCell c q (.idata i) ↔ q = [i] := by
  constructor
  · intro h; cases h; rfl
  · rintro rfl; exact .root i

theorem isCell_blk_iff {c : Ctx} {q : List Nat} {b j : Nat} :
    IsCell c q (.blk b j) ↔ ∃ s, q = s ++ [j] ∧ s ≠ [] ∧ c.val s = b ∧ b ≠ 0 := by
  constructor
  · intro h
    cases h with
    | entry s j hs hne => exact ⟨s, rfl, hs, rfl, hne⟩
  · rintro ⟨s, rfl, hs, rfl, hne⟩
    exact .entry s j hs hne

theorem not_isCell_nr {c : Ctx} {q : List Nat} : ¬IsCell c q .nr := by
  intro h; cases h

/-- A path has one cell. -/
theorem IsCell.unique {c : Ctx} {q : List Nat} {p p' : Cell} (h : IsCell c q p)
    (h' : IsCell c q p') : p = p' := by
  cases p' with
  | nr => exact (not_isCell_nr h').elim
  | idata i =>
    rw [isCell_idata_iff.mp h'] at h
    cases p with
    | nr => exact (not_isCell_nr h).elim
    | idata j => rw [List.head_eq_of_cons_eq (isCell_idata_iff.mp h)]
    | blk b j =>
      obtain ⟨s, he, hs, -⟩ := isCell_blk_iff.mp h
      exact absurd he (by cases s <;> simp at hs ⊢)
  | blk b j =>
    obtain ⟨s, rfl, hs, rfl, hne⟩ := isCell_blk_iff.mp h'
    cases p with
    | nr => exact (not_isCell_nr h).elim
    | idata i =>
      have he := isCell_idata_iff.mp h
      exact absurd he (by cases s <;> simp at hs ⊢)
    | blk b' j' =>
      obtain ⟨s', he, -, rfl, -⟩ := isCell_blk_iff.mp h
      obtain ⟨rfl, hj⟩ := List.append_inj' he rfl
      rw [List.head_eq_of_cons_eq hj]

/-- A cell of a sound tree has one path.  A block hangs in one slot, and two entries of a block are
two cells. -/
theorem TreeSound.cell_inj {c : Ctx} (h : TreeSound c) {q q' : List Nat} {p : Cell}
    (hq : shape.IsPath q) (hq' : shape.IsPath q') (hp : IsCell c q p) (hp' : IsCell c q' p) :
    q = q' := by
  cases p with
  | nr => exact (not_isCell_nr hp).elim
  | idata i => rw [isCell_idata_iff.mp hp, isCell_idata_iff.mp hp']
  | blk b j =>
    obtain ⟨s, rfl, hs, hb, hne⟩ := isCell_blk_iff.mp hp
    obtain ⟨s', rfl, hs', hb', -⟩ := isCell_blk_iff.mp hp'
    have : s = s' := h.one s s' (hq.left hs) (hq'.left hs') (by rw [← hb] at hne; exact hne)
      (hb.trans hb'.symm)
    rw [this]

/-- Slots of one height in a sound tree may be cut off: none lies below another, and what hangs
below them is apart.  This is where the soundness of the tree is used; behind it the proofs are
about cells. -/
theorem TreeOk.detached {c : Ctx} (h : TreeOk c) {d : Nat} {ps : List Cell} (hnd : ps.Nodup)
    (hps : ∀ p ∈ ps, ∃ q, shape.IsPath q ∧ rank q = d ∧ IsCell c q p) : Detached c d ps := by
  refine ⟨hnd, ?_, ?_, ?_, ?_⟩
  · intro p hp r r' hr hr' hne he
    obtain ⟨q, hq, rfl, hc⟩ := hps p hp
    rw [hc.load, Ctx.val, ← val_append hq.ne_nil] at hne
    rw [hc.load, Ctx.val, ← val_append hq.ne_nil, ← val_append hq.ne_nil] at he
    exact List.append_cancel_left (h.one _ _ ((isPath_append hq).mpr hr) ((isPath_append hq).mpr hr')
      hne he)
  · intro p hp p' hp' hpp
    obtain ⟨q, hq, rfl, hc⟩ := hps p hp
    obtain ⟨q', hq', hrank, hc'⟩ := hps p' hp'
    rw [Set.disjoint_left]
    intro b hb hb'
    rw [hc.load, mem_region_val hq] at hb
    rw [hc'.load, ← hrank, mem_region_val hq'] at hb'
    obtain ⟨hne, r, hr, rfl⟩ := hb
    obtain ⟨-, r', hr', he⟩ := hb'
    have hcat := h.one _ _ hr hr' hne he.symm
    -- equal heights under one root slot make the two paths equally long
    have hqq : q = q' := by
      cases q with
      | nil => exact hq.elim
      | cons i s =>
        cases q' with
        | nil => exact hq'.elim
        | cons i' s' =>
          obtain ⟨-, hl, -⟩ := isPath_cons.mp hq
          obtain ⟨-, hl', -⟩ := isPath_cons.mp hq'
          obtain ⟨rfl, htail⟩ : i = i' ∧ s ++ r = s' ++ r' := by simpa using hcat
          simp only [rank, List.headD_cons, List.length_cons] at hrank
          rw [List.append_inj_left htail (by omega)]
    rw [hqq] at hc
    exact hpp (hc.unique hc')
  · intro b i hb hbel
    obtain ⟨q, hq, hrank, hc⟩ := hps _ hb
    obtain ⟨s, rfl, hs, rfl, hne⟩ := isCell_blk_iff.mp hc
    obtain ⟨p, hp, hreg⟩ := hbel
    obtain ⟨q', hq', hrank', hc'⟩ := hps p hp
    rw [hc'.load, ← hrank', mem_region_val hq'] at hreg
    obtain ⟨-, r, hr, he⟩ := hreg
    have heq := h.one _ _ hr (hq.left hs) (by rw [← Ctx.val, he]; exact hne) he
    have h1 : rank s = rank q' - r.length := by rw [← heq, rank_append hq'.ne_nil]
    have h2 := rank_append (r := [i]) hs
    have h3 := (isPath_append (hq.left hs)).mp hq
    have h4 := h3.1
    simp only [List.length_singleton] at h2 h4
    omega
  · rintro b ⟨p, hp, hb⟩
    obtain ⟨q, hq, rfl, hc⟩ := hps p hp
    rw [hc.load, mem_region_val hq] at hb
    obtain ⟨hne, r, hr, rfl⟩ := hb
    exact h.zone _ hr hne

/-! ## 3. Cuts

All that can be said of the result of freeing some slots, whatever the function that did it. -/

/-- What the tree functions may change of an inode: the pointers, cached pages and two times. -/
def InodeStep (i i' : Inode) : Prop :=
  ∃ blkaddr pages mtime ctime,
    i' = { i with blkaddr := blkaddr, pages := pages, i_mtime := mtime, i_ctime := ctime }

theorem InodeStep.refl (i : Inode) : InodeStep i i := ⟨_, _, _, _, rfl⟩

theorem InodeStep.trans {i i' i'' : Inode} (h : InodeStep i i') (h' : InodeStep i' i'') :
    InodeStep i i'' := by
  obtain ⟨_, _, _, _, rfl⟩ := h
  obtain ⟨a, b, d, e, rfl⟩ := h'
  exact ⟨a, b, d, e, rfl⟩

theorem SameInode.step {i i' : Inode} (h : SameInode i i') : InodeStep i i' :=
  ⟨i'.blkaddr, i.pages, i.i_mtime, i.i_ctime, h⟩

open Classical in
/-- What is left when the slots in `Z` and everything below them are freed.  Only the words of cells
in `Z` and of blocks that are no longer held may have changed.  That the blocks below were given
back is part of it where all reads succeed. -/
structure Cut (Z : List Nat → Prop) (c c' : Ctx) : Prop where
  vol : BlockStep c.v c'.v
  inode : InodeStep c.inode c'.inode
  val : ∀ q, shape.IsPath q → c'.val q = if Through Z q then 0 else c.val q
  words : ∀ b, (∀ q, shape.IsPath q → c.val q ≠ 0 → c.val q ≠ b) → c'.v.words b = c.v.words b
  marks : ∀ b, (∀ q, shape.IsPath q → Through Z q → c.val q ≠ 0 → c.val q ≠ b) →
    c'.v.inUse b = c.v.inUse b
  mono : ∀ b, c'.v.inUse b = true → c.v.inUse b = true
  exact : (∀ n, c.v.env.bread n = true) →
    ∀ q, shape.IsPath q → Through Z q → c.val q ≠ 0 → c'.v.inUse (c.val q) = false

section
variable {Z Z' : List Nat → Prop} {c c' c'' : Ctx}

theorem Cut.val_of_not (h : Cut Z c c') {q : List Nat} (hq : shape.IsPath q)
    (hn : ¬Through Z q) : c'.val q = c.val q := by
  rw [h.val q hq, if_neg hn]

theorem Cut.val_of_through (h : Cut Z c c') {q : List Nat} (hq : shape.IsPath q)
    (ht : Through Z q) : c'.val q = 0 := by
  rw [h.val q hq, if_pos ht]

/-- A slot that is still set was not cut, and is as before. -/
theorem Cut.val_of_ne (h : Cut Z c c') {q : List Nat} (hq : shape.IsPath q)
    (hne : c'.val q ≠ 0) : ¬Through Z q ∧ c'.val q = c.val q := by
  have hn : ¬Through Z q := fun ht => hne (h.val_of_through hq ht)
  exact ⟨hn, h.val_of_not hq hn⟩

theorem Cut.sub (h : Cut Z c c') (q : List Nat) (hq : shape.IsPath q) :
    c'.val q = c.val q ∨ c'.val q = 0 := by
  by_cases hne : c'.val q = 0
  · exact Or.inr hne
  · exact Or.inl (h.val_of_ne hq hne).2

/-- **A cut leaves a sound tree.** Slots lose pointers, and what is left is as before; the bits of
what is left are still set. -/
theorem Cut.treeOk (h : Cut Z c c') (hc : TreeOk c) : TreeOk c' where
  geometry := ⟨h.vol.geometry hc.geometry.toGeometry, by rw [h.vol.sbi]; exact hc.geometry.nblocks_le⟩
  padded := by
    intro b hb hz
    rw [h.vol.sbi] at hb
    rw [h.vol.inZone] at hz
    rw [h.marks b fun q hq _ hne he => hz (he ▸ hc.zone q hq hne)]
    exact hc.padded b hb hz
  one := hc.one.of_sub h.sub
  zone q hq hne := by
    have he := (h.val_of_ne hq hne).2
    rw [he, h.vol.inZone]
    exact hc.zone q hq (he ▸ hne)
  used q hq hne := by
    obtain ⟨hn, he⟩ := h.val_of_ne hq hne
    rw [he] at hne ⊢
    rw [h.marks _ fun r hr ht hr0 hre => ?_]
    · exact hc.used q hq hne
    · rw [hc.one r q hr hq hr0 hre] at ht
      exact hn ht

/-- Nothing is cut off where nothing hangs. -/
theorem Cut.of_null (hz : ∀ q, shape.IsPath q → Through Z q → c.val q = 0) : Cut Z c c where
  vol := BlockStep.refl _
  inode := InodeStep.refl _
  val q hq := by
    by_cases ht : Through Z q
    · rw [if_pos ht, hz q hq ht]
    · rw [if_neg ht]
  words _ _ := rfl
  marks _ _ := rfl
  mono _ h := h
  exact _ q hq ht hne := absurd (hz q hq ht) hne

theorem Cut.none (c : Ctx) : Cut (fun _ => False) c c :=
  Cut.of_null fun _ _ ⟨_, _, hf⟩ => hf.elim

theorem through_or {q : List Nat} :
    Through (fun s => Z s ∨ Z' s) q ↔ Through Z q ∨ Through Z' q := by
  constructor
  · rintro ⟨s, hs, hz | hz⟩
    · exact Or.inl ⟨s, hs, hz⟩
    · exact Or.inr ⟨s, hs, hz⟩
  · rintro (⟨s, hs, hz⟩ | ⟨s, hs, hz⟩)
    · exact ⟨s, hs, Or.inl hz⟩
    · exact ⟨s, hs, Or.inr hz⟩

/-- **Two cuts in a row are one cut** at the slots of both.  What the second one frees was still
there after the first. -/
theorem Cut.trans (h : Cut Z c c') (h' : Cut Z' c' c'') : Cut (fun s => Z s ∨ Z' s) c c'' where
  vol := h.vol.trans h'.vol
  inode := h.inode.trans h'.inode
  val q hq := by
    rw [h'.val q hq, h.val q hq]
    by_cases h1 : Through Z q
    · rw [if_pos h1, if_pos (through_or.mpr (Or.inl h1)), ite_self]
    · by_cases h2 : Through Z' q
      · rw [if_pos h2, if_pos (through_or.mpr (Or.inr h2))]
      · rw [if_neg h2, if_neg h1, if_neg fun h => (through_or.mp h).elim h1 h2]
  words b hb := by
    rw [h'.words b fun q hq hne he => ?_, h.words b hb]
    have h1 := (h.val_of_ne hq hne).2
    exact hb q hq (h1 ▸ hne) (h1 ▸ he)
  marks b hb := by
    rw [h'.marks b fun q hq ht hne he => ?_,
      h.marks b fun q hq ht => hb q hq (through_or.mpr (Or.inl ht))]
    have h1 := (h.val_of_ne hq hne).2
    exact hb q hq (through_or.mpr (Or.inr ht)) (h1 ▸ hne) (h1 ▸ he)
  mono b hb := h.mono b (h'.mono b hb)
  exact hio q hq ht hne := by
    by_cases h1 : Through Z q
    · have hf := h.exact hio q hq h1 hne
      by_contra hn
      rw [h'.mono _ (by simpa using hn)] at hf
      exact Bool.false_ne_true hf.symm
    · have h2 : Through Z' q := (through_or.mp ht).resolve_left h1
      have he := h.val_of_not hq h1
      have := h'.exact (by rw [h.vol.env]; exact hio) q hq h2 (he ▸ hne)
      rwa [he] at this

/-- Which paths a set of slots removes depends on the slots of the tree only. -/
theorem through_congr (hnil : ¬Z [] ∧ ¬Z' []) (hz : ∀ s, shape.IsPath s → (Z s ↔ Z' s))
    {q : List Nat} (hq : shape.IsPath q) : Through Z q ↔ Through Z' q := by
  have hpre : ∀ s, s <+: q → (Z s ↔ Z' s) := by
    rintro s ⟨t, rfl⟩
    by_cases hs : s = []
    · rw [hs]; exact iff_of_false hnil.1 hnil.2
    · exact hz s (hq.left hs)
  constructor
  · rintro ⟨s, hs, h⟩; exact ⟨s, hs, (hpre s hs).mp h⟩
  · rintro ⟨s, hs, h⟩; exact ⟨s, hs, (hpre s hs).mpr h⟩

/-- The slots of a cut may be described in another way. -/
theorem Cut.congr (h : Cut Z c c') (hz : ∀ q, shape.IsPath q → (Through Z q ↔ Through Z' q)) :
    Cut Z' c c' where
  vol := h.vol
  inode := h.inode
  val q hq := by
    rw [h.val q hq]
    by_cases ht : Through Z q
    · rw [if_pos ht, if_pos ((hz q hq).mp ht)]
    · rw [if_neg ht, if_neg fun h => ht ((hz q hq).mpr h)]
  words := h.words
  marks b hb := h.marks b fun q hq ht => hb q hq ((hz q hq).mp ht)
  mono := h.mono
  exact hio q hq ht := h.exact hio q hq ((hz q hq).mpr ht)

/-- A cut says nothing about `nr`, cached pages and times. -/
theorem Cut.retarget (h : Cut Z c c') (hv : c''.v = c'.v) (hi : InodeStep c'.inode c''.inode)
    (hb : c''.inode.blkaddr = c'.inode.blkaddr) : Cut Z c c'' := by
  have hval : c''.val = c'.val := by
    funext q
    rw [Ctx.val, Ctx.val, hv, hb]
  exact ⟨by rw [hv]; exact h.vol, h.inode.trans hi, by rw [hval]; exact h.val, by rw [hv]; exact h.words,
    by rw [hv]; exact h.marks, by rw [hv]; exact h.mono, by rw [hv]; exact h.exact⟩

end

section Cells

variable {c : Ctx} {d : Nat} {ps : List Cell} {Z : List Nat → Prop} {q : List Nat} {p : Cell} {b : Nat}

/-- A slot that is set has a cell. -/
theorem exists_isCell (hq : q ≠ []) (hne : c.val q ≠ 0) : ∃ p, IsCell c q p := by
  cases q using List.reverseRecOn with
  | nil => exact absurd rfl hq
  | append_singleton s j =>
    cases s with
    | nil => exact ⟨_, .root j⟩
    | cons i s => exact ⟨_, .entry (i :: s) j (by simp) (val_ne_zero_left (by simp) hne)⟩

/-- The blocks below the cells are those whose slots lie at or below a slot in `Z`. -/
theorem through_of_below (hps : ∀ p ∈ ps, ∃ q, Z q ∧ shape.IsPath q ∧ rank q = d ∧ IsCell c q p)
    (hb : b ∈ Below c d ps) : ∃ q, shape.IsPath q ∧ Through Z q ∧ c.val q = b ∧ b ≠ 0 := by
  obtain ⟨p, hp, hb⟩ := hb
  obtain ⟨q, hz, hq, rfl, hc⟩ := hps p hp
  rw [hc.load, mem_region_val hq] at hb
  obtain ⟨hne, r, hr, rfl⟩ := hb
  exact ⟨_, hr, ⟨q, List.prefix_append _ _, hz⟩, rfl, hne⟩

/-- A cell of the tree is in the range exactly when its slot is in `Z`. -/
theorem mem_cells_iff (h : TreeOk c)
    (hps : ∀ p ∈ ps, ∃ q, Z q ∧ shape.IsPath q ∧ rank q = d ∧ IsCell c q p)
    (hZ : ∀ q p, Z q → shape.IsPath q → IsCell c q p → p ∈ ps) (hq : shape.IsPath q)
    (hc : IsCell c q p) : p ∈ ps ↔ Z q := by
  constructor
  · intro hp
    obtain ⟨q', hz, hq', -, hc'⟩ := hps p hp
    rwa [h.sound.cell_inj hq hq' hc hc']
  · exact fun hz => hZ q p hz hq hc

/-- The block of a slot at or below one in `Z` lies below the cells. -/
theorem below_of_through (h : TreeOk c)
    (hps : ∀ p ∈ ps, ∃ q, Z q ∧ shape.IsPath q ∧ rank q = d ∧ IsCell c q p)
    (hZ : ∀ q p, Z q → shape.IsPath q → IsCell c q p → p ∈ ps) (hnil : ¬Z []) (hq : shape.IsPath q)
    (ht : Through Z q) (hne : c.val q ≠ 0) : c.val q ∈ Below c d ps := by
  obtain ⟨s, ⟨r, rfl⟩, hz⟩ := ht
  have hs : s ≠ [] := fun e => hnil (e ▸ hz)
  have hsp := hq.left hs
  obtain ⟨p, hc⟩ := exists_isCell hs (val_ne_zero_left hs hne)
  have hp := (mem_cells_iff h hps hZ hsp hc).mpr hz
  obtain ⟨q', -, hq', hr', hc'⟩ := hps p hp
  have hqq := h.sound.cell_inj hq' hsp hc' hc
  refine ⟨p, hp, ?_⟩
  rw [hc.load, ← hr', hqq, mem_region_val hsp]
  exact ⟨hne, r, hq, rfl⟩

/-- A slot that stays names a block that is not below the cells. -/
theorem not_below_of_live (h : TreeOk c)
    (hps : ∀ p ∈ ps, ∃ q, Z q ∧ shape.IsPath q ∧ rank q = d ∧ IsCell c q p) (hq : shape.IsPath q)
    (hn : ¬Through Z q) (hne : c.val q ≠ 0) : c.val q ∉ Below c d ps := by
  intro hb
  obtain ⟨q', hq', ht, he, -⟩ := through_of_below hps hb
  rw [h.one q q' hq hq' hne he.symm] at hn
  exact hn ht

open Classical in
/-- A cell of the tree after the range was freed, if it does not lie in a block that goes. -/
theorem Freed.load_cell {c' : Ctx} (hF : Freed d ps c c') (h : TreeOk c)
    (hps : ∀ p ∈ ps, ∃ q, Z q ∧ shape.IsPath q ∧ rank q = d ∧ IsCell c q p)
    (hZ : ∀ q p, Z q → shape.IsPath q → IsCell c q p → p ∈ ps) (hq : shape.IsPath q)
    (hc : IsCell c q p) (hout : ∀ b i, p = .blk b i → b ∉ Below c d ps) :
    c'.load p = if Z q then 0 else c.load p := by
  by_cases hz : Z q
  · rw [if_pos hz, hF.null _ ((mem_cells_iff h hps hZ hq hc).mpr hz)]
  · rw [if_neg hz, hF.frame _ (fun hp => hz ((mem_cells_iff h hps hZ hq hc).mp hp)) hout]

open Classical in
/-- **Freeing the cells of slots of one height is a cut at those slots.** `Freed` speaks of cells
and the blocks below them, `Cut` of paths; the two agree because a cell of a sound tree has one
path. -/
theorem cut_free_branches (h : TreeOk c) (hnd : ps.Nodup)
    (hps : ∀ p ∈ ps, ∃ q, Z q ∧ shape.IsPath q ∧ rank q = d ∧ IsCell c q p)
    (hZ : ∀ q p, Z q → shape.IsPath q → IsCell c q p → p ∈ ps) (hnil : ¬Z []) :
    Cut Z c (free_branches d c ps) := by
  have hD := h.detached hnd fun p hp => by
    obtain ⟨q, -, hq, hr, hc⟩ := hps p hp
    exact ⟨q, hq, hr, hc⟩
  have hF := free_branches_freed d c ps h.geometry.toGeometry hD
  refine ⟨hF.vol, hF.inode.step, ?_, fun b hb => ?_, fun b hb => ?_, hF.mono,
    fun hio q hq ht hne => hF.exact hio _ (below_of_through h hps hZ hnil hq ht hne)⟩
  · refine val_prune hnil (fun i hi => ?_) fun q j hqj hq hn hne => ?_
    · have hq : shape.IsPath [i] := isPath_cons.mpr ⟨hi, by simp, by simp⟩
      exact hF.load_cell h hps hZ hq (.root i) fun b j e => by cases e
    · have hc : IsCell c (q ++ [j]) (.blk (c.val q) j) := .entry q j hq hne
      refine hF.load_cell h hps hZ hqj hc fun b i e => ?_
      rw [← (Cell.blk.inj e).1]
      exact not_below_of_live h hps (hqj.left hq) hn hne
  · funext j
    refine hF.frame (.blk b j) (fun hp => ?_) fun b' i e hbel => ?_
    · obtain ⟨q, -, hq, -, hc⟩ := hps _ hp
      obtain ⟨s, rfl, hs, he, hne⟩ := isCell_blk_iff.mp hc
      exact hb s (hq.left hs) (he ▸ hne) he
    · rw [← (Cell.blk.inj e).1] at hbel
      obtain ⟨q, hq, -, he, hne⟩ := through_of_below hps hbel
      exact hb q hq (he ▸ hne) he
  · refine hF.marks b fun hbel => ?_
    obtain ⟨q, hq, ht, he, hne⟩ := through_of_below hps hbel
    exact hb q hq ht (he ▸ hne) he

end Cells

/-! ## 4. Freeing a pointer that was moved into `nr`

The source keeps the pointer in a local variable while it zeroes its cell under the lock.  The local
variable takes no part in the tree. -/

theorem store_withNr (c : Ctx) (x : Nat) {p : Cell} (hp : p ≠ .nr) (y : Nat) :
    Ctx.store { c with nr := x } p y = { c.store p y with nr := x } := by
  cases p with
  | nr => exact absurd rfl hp
  | idata i => rfl
  | blk b i => rfl

theorem load_withNr (c : Ctx) (x : Nat) {p : Cell} (hp : p ≠ .nr) :
    Ctx.load { c with nr := x } p = c.load p := by
  cases p with
  | nr => exact absurd rfl hp
  | idata i => rfl
  | blk b i => rfl

/-- The local `nr` takes no part in freeing other cells. -/
theorem free_branches_withNr (x : Nat) : ∀ (d : Nat) (ps : List Cell) (c : Ctx), .nr ∉ ps →
    free_branches d { c with nr := x } ps = { free_branches d c ps with nr := x }
  | _, [], _, _ => by simp [free_branches_eq_foldl]
  | d, p :: ps, c, hps => by
    rw [List.mem_cons, not_or] at hps
    have hp : p ≠ .nr := fun e => hps.1 e.symm
    have hone : free_cell d { c with nr := x } p = { free_cell d c p with nr := x } := by
      simp only [free_cell, load_withNr c x hp, store_withNr c x hp]
      by_cases hz : c.load p = 0
      · simp only [hz, if_true]
      · simp only [hz, if_false]
        cases d with
        | zero => rfl
        | succ d =>
          simp only [sb_bread]
          cases (c.store p 0).v.env.bread (c.store p 0).v.tick with
          | false => rfl
          | true =>
            have := free_branches_withNr x d (block_cells (c.load p) 0 (INDIRCOUNT (c.store p 0).v))
              { c.store p 0 with v := { (c.store p 0).v with tick := (c.store p 0).v.tick + 1 } }
              (fun hm => by obtain ⟨_, _, _, e⟩ := mem_block_cells.mp hm; cases e)
            exact congrArg (fun r : Ctx => { r with v := gas_free_block r.v (c.load p) }) this
    have hrest := free_branches_withNr x d ps (free_cell d c p) hps.2
    rw [free_branches_eq_foldl] at hrest ⊢
    rw [List.foldl_cons, hone, hrest, free_branches_eq_foldl, free_branches_eq_foldl,
      List.foldl_cons]
  termination_by d ps => (d, ps.length)

/-- A pointer moved into `nr` and freed there is freed as if in its own cell. -/
theorem free_moved_eq {c : Ctx} {d : Nat} {e : Cell} (he : e ≠ .nr) (hne : c.load e ≠ 0) :
    free_branches d ((c.store .nr (c.load e)).store e 0) [.nr] =
      { free_branches d c [e] with nr := 0 } := by
  have h1 : (c.store .nr (c.load e)).store e 0 = { c.store e 0 with nr := c.load e } :=
    store_withNr c (c.load e) he 0
  rw [h1, free_branches_eq_foldl, free_branches_eq_foldl, List.foldl_cons, List.foldl_cons,
    List.foldl_nil, List.foldl_nil]
  have h2 : Ctx.store { c.store e 0 with nr := c.load e } .nr 0 = { c.store e 0 with nr := 0 } := rfl
  have h3 : Ctx.load { c.store e 0 with nr := c.load e } .nr = c.load e := rfl
  simp only [free_cell, h2, h3, if_neg hne]
  cases d with
  | zero => rfl
  | succ d =>
    simp only [sb_bread]
    cases (c.store e 0).v.env.bread (c.store e 0).v.tick with
    | false => rfl
    | true =>
      have := free_branches_withNr 0 d (block_cells (c.load e) 0 (INDIRCOUNT (c.store e 0).v))
        { c.store e 0 with v := { (c.store e 0).v with tick := (c.store e 0).v.tick + 1 } }
        (fun hm => by obtain ⟨_, _, _, e⟩ := mem_block_cells.mp hm; cases e)
      exact congrArg (fun r : Ctx => { r with v := gas_free_block r.v (c.load e) }) this

theorem store_load_self (c : Ctx) (p : Cell) : c.store p (c.load p) = c := by
  cases p with
  | nr => rfl
  | idata i => simp [Ctx.store, Ctx.load, Function.update_eq_self]
  | blk b i =>
    have : write_word c.v.words b i (c.v.words b i) = c.v.words := by
      funext b' i'
      simp only [write_word]
      split
      · rename_i h; rw [h.1, h.2]
      · rfl
    simp [Ctx.store, Ctx.load, this]

/-- Moving a null pointer into `nr` changes nothing but `nr`. -/
theorem moved_null {c : Ctx} {e : Cell} (he : e ≠ .nr) (hz : c.load e = 0) :
    (c.store .nr (c.load e)).store e 0 = { c with nr := 0 } := by
  conv_lhs => rw [hz, show (c.store .nr 0) = { c with nr := 0 } from rfl, store_withNr c 0 he 0]
  rw [← hz, store_load_self]

/-- A slot without a pointer is cut off already.  Nothing can hang below a null pointer. -/
theorem cut_null {c : Ctx} {q : List Nat} (hq : shape.IsPath q) (hz : c.val q = 0) :
    Cut (· = q) c c := by
  refine Cut.of_null fun r _ ht => ?_
  obtain ⟨s, ⟨t, rfl⟩, rfl⟩ := ht
  exact (val_append hq.ne_nil t).trans (by rw [← Ctx.val, hz, walk_zero])

/-- **Moving the pointer of a slot into `nr` and freeing it is a cut at the slot.** -/
theorem cut_free_moved {c : Ctx} (h : TreeOk c) {q : List Nat} {e : Cell} (hq : shape.IsPath q)
    (hc : IsCell c q e) (hne : c.load e ≠ 0) :
    Cut (· = q) c (free_branches (rank q) ((c.store .nr (c.load e)).store e 0) [.nr]) := by
  have he : e ≠ .nr := by rintro rfl; exact not_isCell_nr hc
  rw [free_moved_eq he hne]
  refine (cut_free_branches h (by simp) ?_ ?_ hq.ne_nil.symm).retarget rfl (InodeStep.refl _) rfl
  · intro p hp
    rw [List.mem_singleton.mp hp]
    exact ⟨q, rfl, hq, rfl, hc⟩
  · rintro r p rfl - hp
    rw [hp.unique hc]
    simp

/-- The entries from `i` on of the indirect block below a slot: the range that a truncation frees in
each block on its way up. -/
theorem cut_block_cells {c : Ctx} (h : TreeOk c) {q : List Nat} (hq : shape.IsPath q)
    (hne : c.val q ≠ 0) (hr : 0 < rank q) (i : Nat) :
    Cut (fun s => ∃ j, i ≤ j ∧ j < 1024 ∧ s = q ++ [j]) c
      (free_branches (rank q - 1) c (block_cells (c.val q) i 1024)) := by
  refine cut_free_branches h (block_cells_nodup _ _ _) ?_ ?_ (by simp)
  · intro p hp
    obtain ⟨j, hij, hj, rfl⟩ := mem_block_cells.mp hp
    have hqj : shape.IsPath (q ++ [j]) :=
      (isPath_append hq).mpr ⟨hr, fun k hk => by rw [List.mem_singleton.mp hk]; exact hj⟩
    exact ⟨_, ⟨j, hij, hj, rfl⟩, hqj, rank_append hq.ne_nil, .entry q j hq.ne_nil hne⟩
  · rintro s p ⟨j, hij, hj, rfl⟩ - hp
    rw [hp.unique (.entry q j hq.ne_nil hne)]
    exact mem_block_cells.mpr ⟨j, hij, hj, rfl⟩

/-- The direct slots from `i` on. -/
theorem cut_idata_cells {c : Ctx} (h : TreeOk c) (i : Nat) :
    Cut (fun s => ∃ j, i ≤ j ∧ j < DIRECT ∧ s = [j]) c (free_data c (idata_cells i DIRECT)) := by
  refine cut_free_branches (d := 0) h (idata_cells_nodup _ _) ?_ ?_ (by simp)
  · intro p hp
    obtain ⟨j, hij, hj, rfl⟩ := mem_idata_cells.mp hp
    have hj' : j < 6 := hj
    refine ⟨_, ⟨j, hij, hj, rfl⟩, isPath_cons.mpr ⟨by omega, by simp, by simp⟩, ?_, .root j⟩
    simp only [rank, List.headD_cons, List.length_cons, List.length_nil]
    omega
  · rintro s p ⟨j, hij, hj, rfl⟩ - hp
    rw [hp.unique (.root j)]
    exact mem_idata_cells.mpr ⟨j, hij, hj, rfl⟩

end GasFs
