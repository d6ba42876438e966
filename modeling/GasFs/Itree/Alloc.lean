/-
# Allocating a branch

`alloc_branch` takes blocks from the map one after the other and links each into the one before;
`splice_branch` hangs the first of them into the tree.  `Grown` is the invariant of the loop: the
blocks taken so far are free data blocks, each but the last one holds the next and nothing else,
and the map has exactly their bits more.  If a block is missing, giving them back restores the
map (`Grown.free_keys`).

A successful allocation is a `Graft`: the slots of the path below the hole get the new blocks and
nothing else changes.  `gas_get_block_create` says that a call of `gas_get_block` with `create`
is a lookup, a failure without effect, or a graft; it never retries.

The order of the blocks matters in one place.  The number of an indirect block passes through an
`int`, and a block from `2 ^ 31` on is zeroed at the wrong sector; so the lemmas ask that the blocks
which will become indirect ones are low (`LowFirst`), in terms of the queue of free blocks.  On a
volume that one file's tree can span this holds by itself (`TreeGeometry.lowFirst`).

The proof of a graft does not follow the chain.  The store of `splice_branch` writes one cell, the
new blocks are linked among themselves, and `PtrTree.val_graft` turns these two facts into the
values of all slots.
-/
import GasFs.Itree.Lookup
import Mathlib.Data.List.GetD

namespace GasFs

open PtrTree

/-! ## 1. The blocks of a new branch

`Linked` and `Grown` speak of the volume alone.  The tree does not know the blocks yet. -/

/-- Each block of `nb` but the last one holds the next, at its offset, and nothing else.  The word
at the offset is the number of the next block, and the other words are zero. -/
def Linked (words : Nat → Nat → Nat) (nb os : List Nat) : Prop :=
  ∀ k b b' o, nb[k]? = some b → nb[k + 1]? = some b' → os[k + 1]? = some o →
    ∀ i, words b i = if i = o then b' else 0

/-- The links lie in the blocks of the branch.  So a store elsewhere leaves the chain. -/
theorem Linked.congr {words words' : Nat → Nat → Nat} {nb os : List Nat} (h : Linked words nb os)
    (hw : ∀ b ∈ nb, words' b = words b) : Linked words' nb os := by
  intro k b b' o hb hb' ho i
  rw [hw b (List.mem_of_getElem? hb)]
  exact h k b b' o hb hb' ho i

/-- One more block, stored in the last one.  The block stored is new, so the links in front are not
overwritten. -/
theorem Linked.snoc {words : Nat → Nat → Nat} {nb os : List Nat} (h : Linked words nb os)
    (hnodup : nb.Nodup) {p o : Nat} (hp : nb.getLast? = some p) (ho : os[nb.length]? = some o)
    (b : Nat) : Linked (fill_block words p o b) (nb ++ [b]) os := by
  intro k x x' o' hk hk' ho' i
  rw [List.getLast?_eq_getElem?] at hp
  have hk1 : k + 1 < nb.length + 1 := by
    have := (List.getElem?_eq_some_iff.mp hk').1
    simpa using this
  rw [List.getElem?_append_left (by omega)] at hk
  by_cases hend : k + 1 < nb.length
  · -- an earlier link, in a block that is not the last one
    rw [List.getElem?_append_left hend] at hk'
    have hxp : x ≠ p := by
      rintro rfl
      exact (List.nodup_iff_getElem?_ne_getElem?.mp hnodup) k (nb.length - 1) (by omega)
        (by omega) (hk.trans hp.symm)
    have hold := h k x x' o' hk hk' ho' i
    simpa [fill_block, hxp] using hold
  · have hkl : k + 1 = nb.length := by omega
    rw [List.getElem?_append_right (by omega), hkl, Nat.sub_self] at hk'
    rw [hkl] at ho'
    obtain rfl : b = x' := by simpa using hk'
    obtain rfl : o = o' := by simpa using ho.symm.trans ho'
    obtain rfl : x = p := by
      rw [← hkl, Nat.add_sub_cancel] at hp
      exact Option.some.inj (hk.symm.trans hp)
    simp [fill_block]

/-- The blocks `nb` were taken for the offsets `os` and linked.  The volume differs from the one
before in their marks and their words.  All other bits, the superblock and the geometry are those of
`v`. -/
structure Grown (v : Vol) (nb os : List Nat) (v' : Vol) : Prop where
  step : BlockStep v v'
  length : nb.length = os.length
  nodup : nb.Nodup
  fresh : ∀ b ∈ nb, v.InZone b ∧ v.inUse b = false
  marks : ∀ b, v'.inUse b = true ↔ b ∈ nb ∨ v.inUse b = true
  words : ∀ b, b ∉ nb → v'.words b = v.words b
  link : ∀ k b b' o, nb[k]? = some b → nb[k + 1]? = some b' → os[k + 1]? = some o →
    ∀ i, v'.words b i = if i = o then b' else 0

theorem Grown.nil (v : Vol) : Grown v [] [] v where
  step := BlockStep.refl v
  length := rfl
  nodup := List.nodup_nil
  fresh := by simp
  marks := by simp
  words _ _ := rfl
  link k b b' o h := by simp at h

theorem Grown.padded {v v' : Vol} {nb os : List Nat} (h : Grown v nb os v') (hp : v.MapPadded) :
    v'.MapPadded := by
  intro b hb hz
  rw [h.step.sbi] at hb
  rw [h.step.inZone] at hz
  exact (h.marks b).mpr (Or.inr (hp b hb hz))

/-- The new block is stored in the last one taken before it.  For the first block of a branch there
is none to store it in; that is done by `splice_branch`. -/
def link_last (words : Nat → Nat → Nat) (nb : List Nat) (o b : Nat) : Nat → Nat → Nat :=
  match nb.getLast? with
  | some p => fill_block words p o b
  | none => words

/-- Only blocks of the branch are written. -/
theorem link_last_of_notMem {words : Nat → Nat → Nat} {nb : List Nat} {o b x : Nat} (hx : x ∉ nb) :
    link_last words nb o b x = words x := by
  unfold link_last
  cases hl : nb.getLast? with
  | none => rfl
  | some p =>
    funext i
    have : x ≠ p := fun e => hx (e ▸ List.mem_of_getLast? hl)
    simp [fill_block, this]

/-- One more block: its bit is set, and it is stored in the last block taken.  A new block is zeroed
before it is linked, so it holds nothing else. -/
theorem Grown.snoc {v v' v'' : Vol} {nb os : List Nat} (h : Grown v nb os v') (o : Nat) {b : Nat}
    (ht : Taken v' b v'') :
    Grown v (nb ++ [b]) (os ++ [o]) { v'' with words := link_last v'.words nb o b } := by
  have hnb : b ∉ nb := fun hb => by
    have hfree := ht.free
    rw [(h.marks b).mpr (Or.inl hb)] at hfree
    exact Bool.false_ne_true hfree.symm
  have hv : v.inUse b = false := by
    by_contra hne
    have hfree := ht.free
    rw [(h.marks b).mpr (Or.inr (by simpa using hne))] at hfree
    exact Bool.false_ne_true hfree.symm
  refine ⟨(h.step.trans ht.step).trans ⟨_, _, _, _, rfl⟩, by simp [h.length], ?_, ?_, ?_, ?_, ?_⟩
  · exact List.nodup_append.mpr ⟨h.nodup, by simp, by
      rintro x hx y hy rfl
      exact hnb (List.mem_singleton.mp hy ▸ hx)⟩
  · intro x hx
    rcases List.mem_append.mp hx with hx | hx
    · exact h.fresh x hx
    · rw [List.mem_singleton.mp hx]
      exact ⟨(h.step.inZone b).mp ht.zone, hv⟩
  · intro x
    have hmark : Vol.inUse { v'' with words := link_last v'.words nb o b } x =
        if x = b then true else v'.inUse x := ht.marks x
    rw [hmark, List.mem_append, List.mem_singleton]
    split_ifs with he
    · simp [he]
    · simp [he, h.marks x]
  · intro x hx
    rw [List.mem_append, not_or] at hx
    exact (link_last_of_notMem hx.1).trans (h.words x hx.1)
  · show Linked (link_last v'.words nb o b) (nb ++ [b]) (os ++ [o])
    have hlink : Linked v'.words nb (os ++ [o]) := by
      intro k x x' o' hk hk' ho' i
      have hlt := (List.getElem?_eq_some_iff.mp hk').1
      have hlen := h.length
      rw [List.getElem?_append_left (by omega)] at ho'
      exact h.link k x x' o' hk hk' ho' i
    unfold link_last
    cases hl : nb.getLast? with
    | none =>
      intro k x x' o' hk hk'
      rw [List.getLast?_eq_none_iff.mp hl] at hk'
      simp at hk'
    | some p => exact hlink.snoc h.nodup hl (by simp [h.length]) b

/-- Giving the blocks back restores the map.  Their words stay written, which nobody sees, as they
are free. -/
theorem Grown.free_keys {v v' : Vol} {nb os : List Nat} (h : Grown v nb os v') (hg : MapGeometry v)
    {branch : List Indirect} (hb : branch.map Indirect.key = nb) :
    BlockStep v (free_keys v' branch) ∧ (free_keys v' branch).words = v'.words ∧
      ∀ b, (free_keys v' branch).inUse b = v.inUse b := by
  have hfree : ∀ (branch : List Indirect) (w : Vol), BlockStep v w →
      BlockStep v (branch.foldl (fun v q => gas_free_block v q.key) w) ∧
      (branch.foldl (fun v q => gas_free_block v q.key) w).words = w.words ∧
      ∀ b, (branch.foldl (fun v q => gas_free_block v q.key) w).inUse b = true ↔
        w.inUse b = true ∧ ¬(v.InZone b ∧ b ∈ branch.map Indirect.key) := by
    intro branch
    induction branch with
    | nil => intro w hw; exact ⟨hw, rfl, fun b => by simp⟩
    | cons q branch ih =>
      intro w hw
      have hgw := hw.map hg
      obtain ⟨h1, h2, h3⟩ := ih (gas_free_block w q.key) (hw.trans (gas_free_block_blockStep _ _))
      refine ⟨h1, h2.trans (gas_free_block_words _ _), fun b => ?_⟩
      have hz := hw.inZone q.key
      rw [List.foldl_cons, h3 b, inUse_gas_free_block hgw]
      by_cases he : b = q.key
      · subst he
        by_cases hzq : v.InZone q.key
        · simp [hzq, hz.mpr hzq]
        · have hzw : ¬w.InZone q.key := fun h => hzq (hz.mp h)
          simp [hzq, hzw]
      · simp [he]
  obtain ⟨h1, h2, h3⟩ := hfree branch v' h.step
  refine ⟨h1, h2, fun b => ?_⟩
  rw [Bool.eq_iff_iff]
  refine (h3 b).trans ?_
  rw [hb, h.marks]
  constructor
  · rintro ⟨hin | hu, hn⟩
    · exact absurd ⟨(h.fresh b hin).1, hin⟩ hn
    · exact hu
  · intro hu
    refine ⟨Or.inr hu, fun hn => ?_⟩
    rw [(h.fresh b hn.2).2] at hu
    exact Bool.false_ne_true hu

/-! ## 2. `alloc_branch`

The loop is followed once, with `Grown` as its invariant and the queue of free blocks beside it. -/

/-- The numbers of data blocks survive the `int` in which `gas_new_block` returns them. -/
theorem MapGeometry.zone_int {v : Vol} (hg : MapGeometry v) {b : Nat} (hz : v.InZone b) :
    int32 b ≠ 0 ∧ u32_of_int (int32 b) = b := by
  have h1 := hg.nblocks_lt
  have h2 := hg.data_pos
  obtain ⟨h3, h4⟩ := hz
  refine ⟨?_, u32_of_int_int32 (by omega)⟩
  rw [ne_eq, int32_eq_zero_iff (by omega)]
  omega

/-- The first `n` blocks of a queue can be used as indirect blocks: as sectors they are not sign
extended.  The last block of a branch is a data block and need not be low. -/
def LowFirst (queue : List Nat) (n : Nat) : Prop := ∀ b ∈ queue.take n, b < 2147483648

/-- On a volume that `mkfs.gas` made a block is its own sector.  Such a volume has 2^30 blocks at
most. -/
theorem TreeGeometry.zone_lt {v : Vol} (hg : TreeGeometry v) {b : Nat} (hz : v.InZone b) :
    b < 2147483648 :=
  Nat.lt_of_lt_of_le hz.2 (Nat.le_trans hg.nblocks_le (by decide))

theorem TreeGeometry.zone_sector {v : Vol} (hg : TreeGeometry v) {b : Nat} (hz : v.InZone b) :
    sector_of_int (int32 b) = b :=
  sector_of_int_int32 (hg.zone_lt hz)

theorem TreeGeometry.lowFirst {v : Vol} (hg : TreeGeometry v) (hp : v.MapPadded) (n : Nat) :
    LowFirst v.free_order n := fun _ hb =>
  hg.zone_lt (zone_of_mem_free_order hg.map hp (List.mem_of_mem_take hb))

/-- The loop of `alloc_branch` from a branch whose blocks are `nb`: one more block for each offset,
or the loop stops and says so.  The induction is on the offsets still to come. -/
theorem alloc_branch_loop_spec {v : Vol} (hg : MapGeometry v) (hp : v.MapPadded) :
    ∀ (offsets : List Nat) (v' : Vol) (branch : List Indirect) (nb os : List Nat) (b : Nat),
      Grown v nb os v' → v.free_order = nb ++ v'.free_order → nb.getLast? = some b →
      branch.map Indirect.key = nb → LowFirst (b :: v'.free_order) offsets.length →
      ∃ nb' os', Grown v nb' os' (alloc_branch_loop v' (int32 b) branch offsets).1 ∧
        v.free_order = nb' ++ (alloc_branch_loop v' (int32 b) branch offsets).1.free_order ∧
        (alloc_branch_loop v' (int32 b) branch offsets).2.1.map Indirect.key = nb' ∧
        (alloc_branch_loop v' (int32 b) branch offsets).2.1.head? = branch.head? ∧
        ((alloc_branch_loop v' (int32 b) branch offsets).2.2 = true → os' = os ++ offsets)
  | [], v', branch, nb, os, b, h, hq, _, hk, _ => ⟨nb, os, h, hq, hk, rfl, fun _ => by simp⟩
  | o :: offsets, v', branch, nb, os, b, h, hq, hl, hk, hlow => by
    have hsector : sector_of_int (int32 b) = b := sector_of_int_int32 (hlow b (by simp))
    have hne : branch ≠ [] := by
      rintro rfl
      rw [List.map_nil] at hk
      rw [← hk] at hl
      simp at hl
    rcases gas_new_block_taken (h.step.map hg) (h.padded hp) with ⟨x, w, heq, ht⟩ | ⟨heq, -⟩
    · obtain ⟨h1, h2⟩ := hg.zone_int ((h.step.inZone x).mp ht.zone)
      have hsn := h.snoc o ht
      have hlink : link_last v'.words nb o x = fill_block w.words b o x := by
        rw [link_last, hl, ht.words]
      rw [hlink] at hsn
      have hlow' : LowFirst (x :: w.free_order) offsets.length := fun y hy => by
        rw [← ht.queue] at hy
        exact hlow y (by rw [List.length_cons, List.take_succ_cons]; exact List.mem_cons_of_mem b hy)
      have hq' : v.free_order =
          (nb ++ [x]) ++ ({ w with words := fill_block w.words b o x } : Vol).free_order := by
        rw [hq, ht.queue, List.append_assoc]
        rfl
      obtain ⟨nb', os', i1, iq, i2, i3, i4⟩ := alloc_branch_loop_spec hg hp offsets _
        (branch ++ [⟨.blk b o, x, some b⟩]) _ _ x hsn hq' (by simp) (by simp [hk]) hlow'
      have hstep : alloc_branch_loop v' (int32 b) branch (o :: offsets) = alloc_branch_loop
          { w with words := fill_block w.words b o x } (int32 x)
          (branch ++ [⟨.blk b o, x, some b⟩]) offsets := by
        rw [alloc_branch_loop, heq]
        simp only [if_neg h1, h2, hsector]
      rw [hstep]
      refine ⟨nb', os', i1, iq, i2, ?_, fun hr => ?_⟩
      · rw [i3, List.head?_append_of_ne_nil _ hne]
      · rw [i4 hr, List.append_assoc, List.singleton_append]
    · have hstep : alloc_branch_loop v' (int32 b) branch (o :: offsets) = (v', branch, false) := by
        rw [alloc_branch_loop, heq]
        rfl
      rw [hstep]
      exact ⟨nb, os, h, hq, hk, rfl, fun hr => by simp at hr⟩

/-- **`alloc_branch` takes one block for each offset, linked in order, or restores the map.**  The
blocks are the first of the queue, and all but the last one become indirect blocks. -/
theorem alloc_branch_spec {c : Ctx} (hg : MapGeometry c.v) (hp : c.v.MapPadded)
    {offsets : List Nat} (ho : offsets ≠ []) (hlow : LowFirst c.v.free_order (offsets.length - 1))
    (start : Indirect) :
    (∃ c' branch nb b0, alloc_branch c offsets start = (c', branch, none) ∧
        Grown c.v nb offsets c'.v ∧ c.v.free_order = nb ++ c'.v.free_order ∧
        c' = { c with v := c'.v } ∧ branch.map Indirect.key = nb ∧
        branch.head? = some { start with key := b0 }) ∨
      (∃ c' branch, alloc_branch c offsets start = (c', branch, some .ENOSPC) ∧
        c' = { c with v := c'.v } ∧ BlockStep c.v c'.v ∧ (∀ b, c'.v.inUse b = c.v.inUse b) ∧
        ∀ b, c.v.inUse b = true → c'.v.words b = c.v.words b) := by
  obtain ⟨o, offsets, rfl⟩ := List.exists_cons_of_ne_nil ho
  rcases gas_new_block_taken hg hp with ⟨x, w, heq, ht⟩ | ⟨heq, -⟩
  · obtain ⟨h1, h2⟩ := hg.zone_int ht.zone
    have hsn := (Grown.nil c.v).snoc o ht
    have hlink : link_last c.v.words [] o x = w.words := ht.words.symm
    rw [hlink] at hsn
    have hlow' : LowFirst (x :: w.free_order) offsets.length := by
      rw [← ht.queue]
      exact hlow
    obtain ⟨nb, os, i1, iq, i2, i3, i4⟩ := alloc_branch_loop_spec hg hp offsets w
      [{ start with key := x }] _ _ x hsn ht.queue (by simp) (by simp) hlow'
    have hstep : alloc_branch c (o :: offsets) start =
        (let r := alloc_branch_loop w (int32 x) [{ start with key := x }] offsets
        if r.2.2 then ({ c with v := r.1 }, r.2.1, none)
        else ({ c with v := free_keys r.1 r.2.1 }, r.2.1, some .ENOSPC)) := by
      rw [alloc_branch, heq]
      simp only [if_neg h1, h2, List.tail_cons]
    rw [hstep]
    generalize alloc_branch_loop w (int32 x) [{ start with key := x }] offsets = r at i1 iq i2 i3 i4
    by_cases hr : r.2.2 = true
    · refine Or.inl ⟨{ c with v := r.1 }, r.2.1, nb, x, by simp only [hr, if_true], ?_, iq, rfl, i2, ?_⟩
      · have := i4 hr
        rw [List.nil_append, List.singleton_append] at this
        rw [← this]
        exact i1
      · rw [i3]; rfl
    · obtain ⟨j1, j2, j3⟩ := i1.free_keys hg i2
      refine Or.inr ⟨{ c with v := free_keys r.1 r.2.1 }, r.2.1,
        by simp only [hr, Bool.false_eq_true, if_false], rfl, j1, j3, ?_⟩
      intro b hb
      refine (congrFun j2 b).trans (i1.words b fun hin => ?_)
      rw [(i1.fresh b hin).2] at hb
      exact Bool.false_ne_true hb
  · have hstep : alloc_branch c (o :: offsets) start = ({ c with v := c.v }, [], some .ENOSPC) := by
      rw [alloc_branch, heq]
      rfl
    exact Or.inr ⟨c, [], hstep, rfl, BlockStep.refl _, fun _ => rfl, fun _ _ => rfl⟩

/-! ## 3. Grafts

What a successful allocation does to the tree. -/

/-- Nothing that is in use has changed.  A call that fails leaves this, and so does a lookup. -/
structure Same (c c' : Ctx) : Prop where
  vol : BlockStep c.v c'.v
  inode : c'.inode = c.inode
  marks : ∀ b, c'.v.inUse b = c.v.inUse b
  words : ∀ b, c.v.inUse b = true → c'.v.words b = c.v.words b

theorem Ticked.same {c c' : Ctx} (h : Ticked c c') : Same c c' := by
  obtain ⟨t, rfl⟩ := h
  exact ⟨⟨_, _, _, t, rfl⟩, rfl, fun _ => rfl, fun _ _ => rfl⟩

theorem Same.trans {c c' c'' : Ctx} (h : Same c c') (h' : Same c' c'') : Same c c'' where
  vol := h.vol.trans h'.vol
  inode := h'.inode.trans h.inode
  marks b := (h'.marks b).trans (h.marks b)
  words b hb := (h'.words b (by rw [h.marks]; exact hb)).trans (h.words b hb)

/-- The values of a tree depend on blocks in use only.  A block that is free may hold anything,
since no path leads through it. -/
theorem TreeSound.val_congr {c c' : Ctx} (hc : TreeSound c) (hi : c'.inode.blkaddr = c.inode.blkaddr)
    (hw : ∀ b, c.v.inUse b = true → c'.v.words b = c.v.words b) {q : List Nat}
    (hq : shape.IsPath q) : c'.val q = c.val q := by
  rw [Ctx.val, hi]
  refine PtrTree.val_congr (S := shape) (fun r hr hne j _ => ?_) q hq
  exact congrFun (hw _ (hc.used r hr hne)) j

theorem Same.val {c c' : Ctx} (h : Same c c') (hc : TreeOk c) {q : List Nat}
    (hq : shape.IsPath q) : c'.val q = c.val q :=
  hc.sound.val_congr (by rw [h.inode]) h.words hq

/-- What is left when the new blocks `nb` hang at the level `m` of the path `o`, where the tree had
a hole.  Slots that are not on the path keep their values. -/
structure Graft (o : List Nat) (m : Nat) (nb : List Nat) (c c' : Ctx) : Prop where
  vol : BlockStep c.v c'.v
  inode : ∃ blkaddr ctime, c'.inode = { c.inode with blkaddr := blkaddr, i_ctime := ctime }
  pos : 1 ≤ m
  le : m ≤ o.length
  length : nb.length + m = o.length + 1
  nodup : nb.Nodup
  fresh : ∀ b ∈ nb, c.v.InZone b ∧ c.v.inUse b = false
  hole : c.val (o.take m) = 0
  val : ∀ q, shape.IsPath q →
    c'.val q = if q <+: o ∧ m ≤ q.length then nb.getD (q.length - m) 0 else c.val q
  words : ∀ b, b ∉ nb → (∀ q, shape.IsPath q → c.val q ≠ 0 → c.val q ≠ b) →
    c'.v.words b = c.v.words b
  marks : ∀ b, c'.v.inUse b = true ↔ b ∈ nb ∨ c.v.inUse b = true

section Store

variable {c c' : Ctx} {o : List Nat} {m b j : Nat} {p : Cell} {nb : List Nat}

/-- The blocks of a tree are in use, so no new block is among them. -/
theorem TreeSound.notMem_fresh (hc : TreeSound c) (hnb : ∀ b ∈ nb, c.v.InZone b ∧ c.v.inUse b = false)
    {q : List Nat} (hq : shape.IsPath q) (hne : c.val q ≠ 0) : c.val q ∉ nb := by
  intro hin
  have hu := hc.used q hq hne
  rw [(hnb _ hin).2] at hu
  exact Bool.false_ne_true hu

/-- The number 0 is no new block. -/
theorem TreeSound.zero_notMem (hc : TreeSound c) (hnb : ∀ b ∈ nb, c.v.InZone b ∧ c.v.inUse b = false) :
    (0 : Nat) ∉ nb := by
  intro h
  have h1 := (hnb 0 h).1.1
  have h2 := hc.geometry.data_pos
  omega

/-- A cell in a block belongs to a slot of the tree that names the block. -/
theorem IsCell.holder {s : List Nat} (h : IsCell c s (.blk b j)) (hs : shape.IsPath s) :
    ∃ q, shape.IsPath q ∧ c.val q = b ∧ b ≠ 0 := by
  obtain ⟨q, rfl, hq, he, hne⟩ := isCell_blk_iff.mp h
  exact ⟨q, hs.left hq, he, hne⟩

/-- The slot above one that has a cell is set: the cell lies in its block. -/
theorem IsCell.above {q : List Nat} (h : IsCell c (q ++ [j]) p) (hq : q ≠ []) : c.val q ≠ 0 := by
  cases p with
  | nr => exact absurd h not_isCell_nr
  | idata i =>
    have h1 := congrArg List.length (isCell_idata_iff.mp h)
    have h2 := List.length_pos_of_ne_nil hq
    rw [List.length_append, List.length_singleton, List.length_singleton] at h1
    omega
  | blk b i =>
    obtain ⟨s, heq, -, hb, hb0⟩ := isCell_blk_iff.mp h
    obtain ⟨rfl, -⟩ := List.append_inj' heq rfl
    rw [← hb] at hb0
    exact hb0

/-- A cell of the tree after a store into the cell of a slot. -/
theorem TreeSound.load_store (hc : TreeSound c) {s q : List Nat} {p' : Cell} (hs : shape.IsPath s)
    (hp : IsCell c s p) (hq : shape.IsPath q) (hp' : IsCell c q p') (c' : Ctx) (x : Nat) :
    (c'.store p x).load p' = if q = s then x else c'.load p' := by
  refine (GasFs.load_store c' p p' x).trans (if_congr ⟨?_, ?_⟩ rfl rfl)
  · rintro rfl
    exact hc.cell_inj hq hs hp' hp
  · rintro rfl
    exact hp'.unique hp

/-- A block that no slot names has no cell of the tree, and keeps its words under such a store. -/
theorem IsCell.words_store {s : List Nat} (hp : IsCell c s p) (hs : shape.IsPath s)
    (hout : ∀ q, shape.IsPath q → c.val q ≠ 0 → c.val q ≠ b) (x j : Nat) :
    (c'.store p x).v.words b j = c'.v.words b j := by
  refine (GasFs.load_store c' p (.blk b j) x).trans (if_neg ?_)
  rintro rfl
  obtain ⟨q, hq, he, hne⟩ := hp.holder hs
  exact hout q hq (he ▸ hne) he

/-- The slots after the first of the new blocks was stored in the slot with the hole. -/
theorem val_of_store (hc : TreeSound c) (ho : IsLeaf o) (hm1 : 1 ≤ m) (hm : m ≤ o.length)
    (hp : IsCell c (o.take m) p) (hz : c.val (o.take m) = 0) (hgr : Grown c.v nb (o.drop (m - 1)) c'.v)
    (hi : c'.inode = c.inode) (hlen : nb.length + m = o.length + 1) {q : List Nat} (hq : shape.IsPath q) :
    (c'.store p (nb.getD 0 0)).val q =
      if q <+: o ∧ m ≤ q.length then nb.getD (q.length - m) 0 else c.val q := by
  have hpath := isPath_take ho.1 hm1 hm
  refine val_graft (fun j => ho.last) hm1 hm hlen (hc.zero_notMem hgr.fresh) hz (fun q hpre hq hne => ?_)
    (fun i hi9 => ?_) (fun q j hqj hq hne => ?_) (fun k x hk hx j => ?_) q hq
  · -- the cell of the hole lies in the block one level up
    obtain ⟨j, hoj⟩ : ∃ j, o[q.length]? = some j := ⟨_, List.getElem?_eq_getElem (by omega)⟩
    have hj : o.take m = q ++ [j] := by
      rw [← hq, take_append_getElem hoj, take_of_pre hpre]
    rw [hj] at hp
    exact hp.above hne
  · have hl := hc.load_store hpath hp (isPath_cons.mpr ⟨hi9, by simp, by simp⟩) (.root i) c'
      (nb.getD 0 0)
    rw [show c'.load (.idata i) = c.inode.blkaddr i by rw [← hi]; rfl] at hl
    exact hl
  · have hl := hc.load_store hpath hp hqj (.entry q j hq hne) c' (nb.getD 0 0)
    rw [show c'.load (.blk (c.val q) j) = c.v.words (c.val q) j from
      congrFun (hgr.words _ (hc.notMem_fresh hgr.fresh (hqj.left hq) hne)) j] at hl
    exact hl
  · have hget : ∀ k, k < nb.length → nb[k]? = some (nb.getD k 0) := fun k hk => by
      rw [List.getD_eq_getElem _ _ hk, List.getElem?_eq_getElem hk]
    have hout : ∀ q, shape.IsPath q → c.val q ≠ 0 → c.val q ≠ nb.getD k 0 := fun q hq hne he =>
      hc.notMem_fresh hgr.fresh hq hne (he ▸ List.mem_of_getElem? (hget k (by omega)))
    exact (hp.words_store hpath hout _ j).trans (hgr.link k _ _ x (hget k (by omega)) (hget (k + 1) hk)
      (by rw [List.getElem?_drop, show m - 1 + (k + 1) = m + k by omega, hx]) j)

/-- Storing the first of the new blocks in the slot with the hole is a graft.  Before the store
nothing of the new blocks is reachable; the one cell written belongs to one path only, since the
tree is sound. -/
theorem graft_of_store (hc : TreeSound c) (ho : IsLeaf o) (hm1 : 1 ≤ m) (hm : m ≤ o.length)
    (hp : IsCell c (o.take m) p) (hz : c.val (o.take m) = 0) (hgr : Grown c.v nb (o.drop (m - 1)) c'.v)
    (hi : c'.inode = c.inode) (ctime : Nat) :
    Graft o m nb c { c'.store p (nb.getD 0 0) with
      inode := { (c'.store p (nb.getD 0 0)).inode with i_ctime := ctime } } := by
  have hlen : nb.length + m = o.length + 1 := by
    rw [hgr.length, List.length_drop]; omega
  have hpath := isPath_take ho.1 hm1 hm
  have hsame : SameInode c.inode (c'.store p (nb.getD 0 0)).inode := hi ▸ store_sameInode c' p _
  refine ⟨hgr.step.trans (store_blockStep c' p _), ?_, hm1, hm, hlen, hgr.nodup, hgr.fresh, hz,
    fun q hq => val_of_store hc ho hm1 hm hp hz hgr hi hlen hq, fun b hb hheld => ?_, fun b => ?_⟩
  · exact ⟨(c'.store p (nb.getD 0 0)).inode.blkaddr, ctime, by rw [hsame]⟩
  · funext j
    exact (hp.words_store hpath hheld _ j).trans (congrFun (hgr.words b hb) j)
  · rw [← hgr.marks b]
    exact iff_of_eq (congrArg (· = true) (store_inUse c' p _ b))

end Store

section
variable {o : List Nat} {m : Nat} {nb : List Nat} {c c' : Ctx}

/-- A slot is as it was, or it holds a new block and lies on the path.  The induction is on the
path: where it leaves `o`, it goes on in the old tree or in zeros. -/
theorem Graft.val_cases (h : Graft o m nb c c') {q : List Nat} (hq : shape.IsPath q) :
    c'.val q = c.val q ∧ ¬(q <+: o ∧ m ≤ q.length) ∨
      q <+: o ∧ m ≤ q.length ∧ q.length - m < nb.length ∧ nb[q.length - m]? = some (c'.val q) := by
  rw [h.val q hq]
  by_cases hA : q <+: o ∧ m ≤ q.length
  · have h1 := hA.1.length_le
    have h2 := h.length
    have hlt : q.length - m < nb.length := by omega
    rw [if_pos hA]
    refine Or.inr ⟨hA.1, hA.2, hlt, ?_⟩
    rw [List.getD_eq_getElem _ _ hlt, List.getElem?_eq_getElem hlt]
  · rw [if_neg hA]
    exact Or.inl ⟨rfl, hA⟩

/-- A slot that was set keeps its pointer: below the hole all slots were null. -/
theorem Graft.val_of_ne (h : Graft o m nb c c') (ho : shape.IsPath o) {q : List Nat}
    (hq : shape.IsPath q) (hne : c.val q ≠ 0) : c'.val q = c.val q := by
  rcases h.val_cases hq with ⟨h1, -⟩ | ⟨hpre, hle, -, -⟩
  · exact h1
  · refine absurd (val_null_below (isPath_take ho h.pos h.le).ne_nil h.hole ?_) hne
    rw [← take_of_pre hpre]
    exact List.take_prefix_take_left hle

/-- **A graft leaves a sound tree.** The new pointers are new blocks, different from each other and
from all that was in the tree, because those were in use. -/
theorem Graft.sound (h : Graft o m nb c c') (hc : TreeSound c) : TreeSound c' where
  geometry := h.vol.map hc.geometry
  padded b hb hz := by
    rw [h.vol.sbi] at hb
    rw [h.vol.inZone] at hz
    exact (h.marks b).mpr (Or.inr (hc.padded b hb hz))
  one := by
    intro q q' hq hq' hne he
    have hold : ∀ r, shape.IsPath r → c.val r ≠ 0 → c.val r ∉ nb := fun r hr hr0 hin => by
      have := hc.used r hr hr0
      rw [(h.fresh _ hin).2] at this
      exact Bool.false_ne_true this
    rcases h.val_cases hq with ⟨h1, -⟩ | ⟨hpre, hm, hlt, h1⟩
    · rcases h.val_cases hq' with ⟨h2, -⟩ | ⟨-, -, -, h2⟩
      · have hne' : c.val q ≠ 0 := by rw [← h1]; exact hne
        exact hc.one q q' hq hq' hne' (h1.symm.trans (Eq.trans he h2))
      · refine absurd (List.mem_of_getElem? h2) ?_
        rw [show c'.val q' = c.val q from he.symm.trans h1]
        exact hold q hq (by rw [← h1]; exact hne)
    · rcases h.val_cases hq' with ⟨h2, -⟩ | ⟨hpre', hm', hlt', h2⟩
      · refine absurd (List.mem_of_getElem? h1) ?_
        rw [show c'.val q = c.val q' from he.trans h2]
        exact hold q' hq' (by rw [← h2]; exact fun e => hne (he.trans e))
      · -- two new blocks: equal numbers stand at one place of the chain
        have hidx : q.length - m = q'.length - m := by
          by_contra hn
          refine (List.nodup_iff_getElem?_ne_getElem?.mp h.nodup) (min (q.length - m) (q'.length - m))
            (max (q.length - m) (q'.length - m)) (by omega) (by omega) ?_
          rcases Nat.le_total (q.length - m) (q'.length - m) with hle | hle
          · rw [min_eq_left hle, max_eq_right hle, h1, h2]
            exact congrArg some he
          · rw [min_eq_right hle, max_eq_left hle, h1, h2]
            exact congrArg some he.symm
        rw [← take_of_pre hpre, ← take_of_pre hpre', show q.length = q'.length by omega]
  zone q hq hne := by
    rw [h.vol.inZone]
    rcases h.val_cases hq with ⟨h1, -⟩ | ⟨-, -, -, h1⟩
    · rw [h1]
      exact hc.zone q hq (h1 ▸ hne)
    · exact (h.fresh _ (List.mem_of_getElem? h1)).1
  used q hq hne := by
    rw [h.marks]
    rcases h.val_cases hq with ⟨h1, -⟩ | ⟨-, -, -, h1⟩
    · rw [h1]
      exact Or.inr (hc.used q hq (h1 ▸ hne))
    · exact Or.inl (List.mem_of_getElem? h1)

theorem Graft.treeOk (h : Graft o m nb c c') (hc : TreeOk c) : TreeOk c' :=
  (h.sound hc.sound).treeOk ⟨h.vol.geometry hc.geometry.toGeometry, by
    rw [h.vol.sbi]; exact hc.geometry.nblocks_le⟩

/-- Requests made before do not matter. -/
theorem Graft.of_ticked {c1 : Ctx} (ht : Ticked c c1) (h : Graft o m nb c1 c') :
    Graft o m nb c c' := by
  obtain ⟨t, rfl⟩ := ht
  exact ⟨BlockStep.trans ⟨_, _, _, t, rfl⟩ h.vol, h.inode, h.pos, h.le, h.length, h.nodup, h.fresh,
    h.hole, h.val, h.words, h.marks⟩

/-- The data slot of the path holds the last of the new blocks. -/
theorem Graft.val_path (h : Graft o m nb c c') (ho : shape.IsPath o) :
    c'.val o = nb.getD (nb.length - 1) 0 := by
  have hl := h.length
  have hm := h.le
  rw [h.val o ho, if_pos ⟨List.prefix_refl o, hm⟩, show o.length - m = nb.length - 1 by omega]

/-- Every new block is in the tree afterwards.  Each of them stands in a slot of the path, from the
hole down. -/
theorem Graft.held (h : Graft o m nb c c') (ho : IsLeaf o) {b : Nat} (hb : b ∈ nb) :
    ∃ q, shape.IsPath q ∧ c'.val q = b := by
  obtain ⟨k, hk⟩ := List.getElem?_of_mem hb
  have hlt := (List.getElem?_eq_some_iff.mp hk).1
  have hl := h.length
  have hp := h.pos
  have hlen : (o.take (m + k)).length = m + k := by rw [List.length_take]; omega
  have hq := isPath_take ho.1 (l := m + k) (by omega) (by omega)
  refine ⟨_, hq, ?_⟩
  rw [h.val _ hq, if_pos (And.intro ( List.take_prefix _ _) (by omega)), hlen, Nat.add_sub_cancel_left,
    List.getD_eq_getElem?_getD, hk]
  rfl

end

/-! ## 4. `gas_get_block` with `create`

The cases of a call, put together from `get_branch`, `alloc_branch` and `splice_branch`. -/

/-- What an allocating call leaves: nothing changed and the call failed, nothing changed and the
block was found, or the missing part of its path was grafted.  The first case is the only one with
an error. -/
inductive Created (c : Ctx) (o : List Nat) (r : GetBlock) : Prop
  | failed (hs : Same c r.c) (hm : r.mapped = none) (he : r.err ≠ none)
  | found (hs : Same c r.c) (hne : c.val o ≠ 0) (hm : r.mapped = some (c.val o)) (he : r.err = none)
  | grafted (m : Nat) (nb : List Nat) (hg : Graft o m nb c r.c) (hm : r.mapped = some (r.c.val o))
      (he : r.err = none)

/-- Where the tree has a hole on the path.  The chain was read in this state, so its verification
succeeds, and the store goes into the slot in front of the hole. -/
theorem splice_spec {c c1 : Ctx} (hc : TreeSound c) {o : List Nat} (ho : IsLeaf o) {r : Branch}
    (hB : BranchOf c o r) (hz : c.val (o.take r.chain.length) = 0) {branch : List Indirect}
    {b0 : Nat} (hgr : Grown r.c.v (branch.map Indirect.key) (o.drop (r.chain.length - 1)) c1.v)
    (hc1 : c1 = { r.c with v := c1.v })
    (hhead : branch.head? = some { r.chain.getLastD default with key := b0 }) :
    ∃ c2, splice_branch c1 r.chain.dropLast branch = (c2, true) ∧
      Graft o r.chain.length (branch.map Indirect.key) c c2 ∧
      c2.val o = (branch.getLastD default).key ∧ c2.v.free_order = c1.v.free_order := by
  have hcr := hB.ticked.sound hc
  have hm1 : 1 ≤ r.chain.length := List.length_pos_of_ne_nil hB.pos
  have hlast := hB.last
  have hpm := isPath_take ho.1 hm1 hB.le
  -- the tree still is what it was when the chain was read
  have hsame : ∀ q, shape.IsPath q → c1.val q = c.val q := fun q hq => by
    rw [← hB.ticked.val]
    refine hcr.val_congr (by rw [hc1]) (fun b hb => hgr.words b fun hin => ?_) hq
    rw [(hgr.fresh b hin).2] at hb
    exact Bool.false_ne_true hb
  have hcell : ∀ q p, shape.IsPath q → IsCell c q p → IsCell c1 q p := by
    intro q p hq hp
    cases hp with
    | root i => exact .root i
    | entry q j hq' hne =>
      have he := hsame q (hq.left hq')
      rw [← he] at hne ⊢
      exact .entry q j hq' hne
  have hchain : ChainOf c1 (o.take r.chain.length) r.chain := by
    refine ⟨hB.chain.length, fun l e hl => ?_⟩
    obtain ⟨h1, h2⟩ := hB.chain.entry l e hl
    have hlt := (List.getElem?_eq_some_iff.mp hl).1
    have hle := hB.le
    have hq : shape.IsPath ((o.take r.chain.length).take (l + 1)) := by
      rw [List.take_take, min_eq_left (by omega)]
      exact isPath_take ho.1 (by omega) (by omega)
    exact ⟨hcell _ _ hq h1, by rw [h2, hsame _ hq]⟩
  have hbr : branch.headD default = { r.chain.getLastD default with key := b0 } := by
    rw [List.headD_eq_head?_getD, hhead]
    rfl
  have hb0 : (branch.map Indirect.key).getD 0 0 = b0 := by
    rw [List.getD_eq_getElem?_getD, ← List.head?_eq_getElem?, List.head?_map, hhead]
    rfl
  have hw : c1.load (r.chain.getLastD default).p = 0 := by
    rw [(hcell _ _ hpm hlast.1).load, hsame _ hpm, hz]
  have hg := fun ctime => (graft_of_store hcr ho hm1 hB.le (hB.ticked.isCell.mpr hlast.1)
    (by rw [hB.ticked.val]; exact hz) hgr (by rw [hc1]) ctime).of_ticked hB.ticked
  rw [hb0] at hg
  have hspl : splice_branch c1 r.chain.dropLast branch =
      ({ c1.store (r.chain.getLastD default).p b0 with
        inode := { (c1.store (r.chain.getLastD default).p b0).inode with
          i_ctime := (c1.store (r.chain.getLastD default).p b0).v.now } }, true) := by
    rw [splice_branch, hbr, if_neg]
    rintro (h | h)
    · rw [hchain.dropLast.verify] at h
      exact Bool.false_ne_true h.symm
    · exact h hw
  refine ⟨_, hspl, hg _, ?_, by cases (r.chain.getLastD default).p <;> rfl⟩
  rw [(hg _).val_path ho.1, List.getD_eq_getElem?_getD, ← List.getLast?_eq_getElem?,
    List.getLast?_map, List.getLastD_eq_getLast?]
  cases hl : branch.getLast? with
  | none =>
    rw [List.getLast?_eq_none_iff.mp hl] at hhead
    simp at hhead
  | some e => rfl

/-- One round of the loop settles the call: `fuel` does not matter.  A retry would need a chain that
has changed, and nobody else runs. -/
theorem gas_get_block_loop_create {c : Ctx} (hc : TreeOk c) {o : List Nat} (ho : IsLeaf o) :
    ∃ r, (∀ fuel, gas_get_block_loop c o true (fuel + 1) = some r) ∧ Created c o r := by
  have hB := get_branch_spec c ho.1.ne_nil
  simp only [gas_get_block_loop]
  generalize get_branch c o = r at hB
  have hm1 : 1 ≤ r.chain.length := List.length_pos_of_ne_nil hB.pos
  rcases hB.outcome with ⟨hn, he, hl, hne⟩ | ⟨hn, he, hz⟩ | ⟨hn, he, -, -, -⟩
  · have hlast := hB.last
    rw [hl, List.take_length] at hlast
    simp only [hn, if_true]
    exact ⟨_, fun _ => rfl, .found hB.ticked.same hne (by rw [hlast.2]) rfl⟩
  · have hcr := hB.ticked.treeOk hc
    have hcond : ¬(true = false ∨ r.err = some Errno.EIO) := by simp [he]
    have hag : ¬r.err = some .EAGAIN := by simp [he]
    simp only [hn, Bool.false_eq_true, if_false, hcond, hag]
    have hdrop : o.drop (r.chain.length - 1) ≠ [] := List.ne_nil_of_length_pos (by
      have := hB.le
      rw [List.length_drop]; omega)
    rcases alloc_branch_spec hcr.geometry.map hcr.padded hdrop (hcr.geometry.lowFirst hcr.padded _)
      (r.chain.getLastD default) with
      ⟨c1, branch, nb, b0, heq, hgr, -, hc1, rfl, hhead⟩ | ⟨c1, branch, heq, hc1, h1, h2, h3⟩
    · obtain ⟨c2, hspl, hg, hv, -⟩ := splice_spec hc.sound ho hB hz hgr hc1 hhead
      simp only [heq, hspl]
      exact ⟨_, fun _ => rfl, .grafted _ _ hg (by rw [hv]) rfl⟩
    · simp only [heq]
      exact ⟨_, fun _ => rfl, .failed (hB.ticked.same.trans ⟨h1, by rw [hc1], h2, h3⟩) rfl (by simp)⟩
  · have hcond : true = false ∨ r.err = some Errno.EIO := Or.inr he
    simp only [hn, Bool.false_eq_true, if_false, hcond, if_true]
    exact ⟨_, fun _ => rfl, .failed hB.ticked.same rfl (by simp [he])⟩

/-- **Allocating calls** fail without effect, find the block, or graft the missing part of its path.
A block number out of range has no path, and the call fails. -/
theorem gas_get_block_create {c : Ctx} (hc : TreeOk c) (block : Nat) :
    Created c (block_to_path c.v block) (gas_get_block c block true) ∧
      (block_to_path c.v block = [] → (gas_get_block c block true).err ≠ none) := by
  unfold gas_get_block
  have hleaf := fun h => block_to_path_isLeaf hc.geometry (b := block) h
  generalize block_to_path c.v block = o at hleaf
  match o, hleaf with
  | [], _ => exact ⟨.failed (Ticked.refl c).same rfl (by simp), fun _ => by simp⟩
  | i :: t, hleaf =>
    obtain ⟨r, hr, hcr⟩ := gas_get_block_loop_create hc (hleaf (by simp))
    simp only [hr, Option.getD_some]
    exact ⟨hcr, fun h => by simp at h⟩

end GasFs
