/-
# What is in the blocks

`Cut`, `Graft` and `Same` say which pointers the tree functions leave.  Here is what they leave of the
data: a block that a file maps keeps its place and its contents (`KeepsBlocks`).  A call of
`gas_get_block` keeps all of them, a truncation those in front of the end of file
(`gas_truncate_inode_keeps`).

A truncation writes zeros over pointers, into the inode and into indirect blocks, and no data block is
an indirect block.  So what is still mapped after a piece of it is what it was (`DataStep`), and
pieces compose without conditions.

The two halves of the statement differ in their hypotheses.  An allocation keeps every block there
is, with no condition, because it writes into blocks that were free and into cells of the tree.  A
truncation keeps what is in front of the end of file only if all buffers can be read: when a read
fails, `find_shared` takes the block for a hole and cuts off more than it should
(`Itree/Fault.lean`).

`FillStep` packs the first half together with the step of the owner, since the two are always used
together for functions that write into directories and files.
-/
import GasFs.Accounts

namespace GasFs

open PtrTree

/-! ## 1. Truncation

Slots that are set afterwards were not written, so they name the same block as before. -/

/-- What is still mapped is mapped as before, with what was in it.  Slots that are null afterwards
are not asked about. -/
def DataStep (c c' : Ctx) : Prop :=
  ∀ q, IsLeaf q → c'.val q ≠ 0 → c'.val q = c.val q ∧ c'.v.words (c.val q) = c.v.words (c.val q)

section Truncate

variable {c c' c'' : Ctx}

theorem DataStep.trans (h : DataStep c c') (h' : DataStep c' c'') : DataStep c c'' := by
  intro q hq hne
  obtain ⟨h1, h2⟩ := h' q hq hne
  rw [h1] at hne ⊢
  obtain ⟨h3, h4⟩ := h q hq hne
  rw [h3] at h2
  exact ⟨h3, h2.trans h4⟩

theorem DataStep.of_eq (hw : c'.v.words = c.v.words) (hb : c'.inode.blkaddr = c.inode.blkaddr) :
    DataStep c c' := fun q _ _ => ⟨by rw [Ctx.val, Ctx.val, hw, hb], by rw [hw]⟩

/-- The local `nr`, the times and the cached pages do not matter. -/
theorem DataStep.retarget (h : DataStep c c') (hw : c''.v.words = c'.v.words)
    (hb : c''.inode.blkaddr = c'.inode.blkaddr) : DataStep c c'' := h.trans (.of_eq hw hb)

theorem DataStep.refl (c : Ctx) : DataStep c c := .of_eq rfl rfl

theorem Ticked.dataStep (h : Ticked c c') : DataStep c c' := by
  obtain ⟨t, rfl⟩ := h
  exact .of_eq rfl rfl

/-- A data block has no cells: it lies at the end of a path, and no other path leads to it.  So no
store into a cell can hit it. -/
theorem TreeOk.no_cell (hc : TreeOk c) {q r : List Nat} (hq : IsLeaf q) (hne : c.val q ≠ 0)
    (hr : shape.IsPath r) (j : Nat) : ¬IsCell c r (.blk (c.val q) j) := by
  intro hcell
  obtain ⟨s, rfl, hs, he, -⟩ := isCell_blk_iff.mp hcell
  obtain rfl := hc.one q s hq.1 (hr.left hs) hne he.symm
  exact hq.last hr

/-- **Freeing cells leaves the data that stays.** Words are written in the blocks of the cells and
below them; a data block that stays is neither. -/
theorem free_branches_dataStep (hc : TreeOk c) {d : Nat} {ps : List Cell} (hnd : ps.Nodup)
    (hps : ∀ p ∈ ps, ∃ q, shape.IsPath q ∧ rank q = d ∧ IsCell c q p) :
    DataStep c (free_branches d c ps) := by
  have hcut : Cut (fun q => ∃ p ∈ ps, shape.IsPath q ∧ IsCell c q p) c (free_branches d c ps) := by
    refine cut_free_branches hc hnd (fun p hp => ?_) (fun q p hz _ hcell => ?_) ?_
    · obtain ⟨q, hq, hr, hcell⟩ := hps p hp
      exact ⟨q, ⟨p, hp, hq, hcell⟩, hq, hr, hcell⟩
    · obtain ⟨p', hp', -, hcell'⟩ := hz
      rw [hcell.unique hcell']
      exact hp'
    · rintro ⟨p, -, hq, -⟩
      exact hq.ne_nil rfl
  have hfreed := free_branches_freed d c ps hc.geometry.toGeometry (hc.detached hnd hps)
  intro q hq hne
  obtain ⟨hstays, hval⟩ := hcut.val_of_ne hq.1 hne
  rw [hval] at hne
  refine ⟨hval, funext fun j => hfreed.frame (.blk (c.val q) j) (fun hp => ?_) fun b i he hb => ?_⟩
  · obtain ⟨r, hr, -, hcell⟩ := hps _ hp
    exact hc.no_cell hq hne hr j hcell
  · -- a block below the cells is held by a slot that goes
    obtain ⟨rfl, -⟩ := Cell.blk.inj he
    obtain ⟨p, hp, hb⟩ := hb
    obtain ⟨r, hr, rfl, hcell⟩ := hps p hp
    rw [hcell.load, mem_region_val hr] at hb
    obtain ⟨-, s, hs, hsb⟩ := hb
    obtain rfl := hc.one q (r ++ s) hq.1 hs hne hsb.symm
    exact hstays ⟨r, List.prefix_append r s, p, hp, hr, hcell⟩

/-- A pointer moved into `nr`, and freed unless it is null. -/
theorem free_moved_dataStep (hc : TreeOk c) {q : List Nat} {e : Cell} (hq : shape.IsPath q)
    (he : IsCell c q e) :
    DataStep c (if ((c.store .nr (c.load e)).store e 0).nr = 0 then (c.store .nr (c.load e)).store e 0
      else free_branches (rank q) ((c.store .nr (c.load e)).store e 0) [.nr]) := by
  have hne : e ≠ .nr := by
    rintro rfl
    exact not_isCell_nr he
  have hnr : ((c.store .nr (c.load e)).store e 0).nr = c.load e := by
    rw [show c.store .nr (c.load e) = { c with nr := c.load e } from rfl, store_withNr _ _ hne]
  rw [hnr]
  split
  · next hz =>
    rw [moved_null hne hz]
    exact .of_eq rfl rfl
  · next hz =>
    rw [free_moved_eq hne hz]
    refine (free_branches_dataStep hc (by simp) fun p hp => ?_).retarget rfl rfl
    rw [List.mem_singleton.mp hp]
    exact ⟨q, hq, rfl, he⟩

theorem do_indirects_dataStep (hc : TreeOk c) (w : Nat) : DataStep c (do_indirects w c) := by
  unfold do_indirects
  have hmem : ∀ x ∈ List.range' w (DEPTH - 1 - w), x < 3 := fun x hx => by
    rw [List.mem_range'_1] at hx
    simp only [DEPTH] at hx
    omega
  generalize List.range' w (DEPTH - 1 - w) = ws at hmem
  induction ws generalizing c with
  | nil => exact .refl c
  | cons x ws ih =>
    have hx := hmem x (by simp)
    have hq : shape.IsPath [x + 6] := isPath_cons.mpr ⟨by omega, by simp, by simp⟩
    have hcell : IsCell c [x + 6] (.idata (DIRECT + x)) := by
      rw [isCell_idata_iff, Nat.add_comm]
    have hrank : rank [x + 6] = x + 1 := by
      simp only [rank, List.headD_cons, List.length_cons, List.length_nil]
      omega
    have hone : DataStep c (let c' := c.store .nr (c.load (.idata (DIRECT + x)))
        if c'.nr = 0 then c'
        else free_branches (x + 1) (c'.store (.idata (DIRECT + x)) 0) [.nr]) := by
      have h := free_moved_dataStep hc hq hcell
      rw [hrank] at h
      by_cases hz : c.load (.idata (DIRECT + x)) = 0
      · rw [if_pos (show (c.store .nr (c.load (.idata (DIRECT + x)))).nr = 0 from hz)]
        exact .of_eq rfl rfl
      · rw [if_neg (show (c.store .nr (c.load (.idata (DIRECT + x)))).nr ≠ 0 from hz)]
        rwa [if_neg (show ((c.store .nr (c.load (.idata (DIRECT + x)))).store
          (.idata (DIRECT + x)) 0).nr ≠ 0 from hz)] at h
    exact hone.trans (ih ((cut_indirect hc hx).treeOk hc) fun y hy =>
      hmem y (List.mem_cons_of_mem _ hy))

/-- The ends of the indirect blocks on the shared branch. -/
theorem clear_ends_dataStep {o : List Nat} (ho : IsLeaf o) {chain : List Indirect} {start : Nat → Nat} :
    ∀ (i : Nat) (c : Ctx), TreeOk c → i < o.length →
      (∀ l, 1 ≤ l → l ≤ i → c.val (o.take l) ≠ 0 ∧
        (chain.getD l default).p = .blk (c.val (o.take l)) (start l)) →
      DataStep c (clear_ends chain o.length i c)
  | 0, c, _, _, _ => .refl c
  | i + 1, c, hc, hi, hch => by
    obtain ⟨hne, hp⟩ := hch (i + 1) (by omega) (le_refl _)
    have hq := isPath_take ho.1 (l := i + 1) (by omega) (by omega)
    have hrank := rank_take ho (l := i + 1) (by omega) (by omega)
    have hcells : cells_behind c.v (chain.getD (i + 1) default) =
        block_cells (c.val (o.take (i + 1))) (start (i + 1) + 1) 1024 := by
      simp only [cells_behind, hp, hc.geometry.toGeometry.indircount]
    have hcut := cut_block_cells hc hq hne (by omega) (start (i + 1) + 1)
    rw [hrank, show o.length - (i + 1) - 1 = o.length - 1 - (i + 1) by omega] at hcut
    have h1 : DataStep c (free_branches (o.length - 1 - (i + 1)) c
        (block_cells (c.val (o.take (i + 1))) (start (i + 1) + 1) 1024)) := by
      refine free_branches_dataStep hc (block_cells_nodup _ _ _) fun p hp' => ?_
      obtain ⟨j, -, hj, rfl⟩ := mem_block_cells.mp hp'
      refine ⟨_, (isPath_append hq).mpr ⟨by rw [List.length_singleton]; omega, fun k hk => by
        rw [List.mem_singleton.mp hk]; exact hj⟩, ?_, .entry _ j hq.ne_nil hne⟩
      rw [rank_append hq.ne_nil, hrank, List.length_singleton]
      omega
    rw [clear_ends, hcells]
    refine h1.trans (@clear_ends_dataStep o ho chain start i _ (hcut.treeOk hc) (by omega)
      fun l hl hli => ?_)
    rw [hcut.val_of_not (isPath_take ho.1 hl (by omega))]
    · exact hch l hl (by omega)
    · rintro ⟨t, ht, j, -, -, rfl⟩
      have := ht.length_le
      simp only [List.length_append, List.length_take, List.length_singleton] at this
      omega

/-- The pointer `find_shared` left in `nr`. -/
theorem SharedOf.dataStep (hc : TreeOk c) (hnr : c.nr = 0) {o : List Nat} (ho : IsLeaf o)
    {s : Shared} {start : Nat → Nat} (h : SharedOf c o s start) :
    DataStep c (if s.c.nr = 0 then s.c else free_branches (o.length - 1 - s.at_) s.c [.nr]) := by
  have hlt := h.lt
  rcases h.last with ⟨ht, -⟩ | ⟨c', e, ht, he, -, heq⟩
  · have hz : s.c.nr = 0 := by
      obtain ⟨t, ht⟩ := ht
      rw [ht]
      exact hnr
    rw [if_pos hz]
    exact ht.dataStep
  · have hq := isPath_take ho.1 (l := s.at_ + 1) (by omega) (by omega)
    have hrank := rank_take ho (l := s.at_ + 1) (by omega) (by omega)
    have hmoved := free_moved_dataStep (ht.treeOk hc) hq (ht.isCell.mpr he)
    rw [hrank, show o.length - (s.at_ + 1) = o.length - 1 - s.at_ by omega, ← heq] at hmoved
    exact ht.dataStep.trans hmoved

theorem cut_body_dataStep (hc : TreeOk c) : ∀ {o : List Nat}, (o ≠ [] → IsLeaf o) →
    DataStep c (cut_body c o)
  | [], _ => .refl c
  | [i], _ => by
    have hfree : DataStep c (free_data c (idata_cells i DIRECT)) := by
      refine free_branches_dataStep (d := 0) hc (idata_cells_nodup _ _) fun p hp => ?_
      obtain ⟨j, -, hj, rfl⟩ := mem_idata_cells.mp hp
      have hj' : j < 6 := hj
      refine ⟨[j], isPath_cons.mpr ⟨by omega, by simp, by simp⟩, ?_, .root j⟩
      simp only [rank, List.headD_cons, List.length_cons, List.length_nil]
      omega
    exact hfree.trans (do_indirects_dataStep ((cut_idata_cells hc i).treeOk hc) 0)
  | i :: i' :: r, hleaf => by
    have ho := hleaf (by simp)
    obtain ⟨start, hs⟩ := find_shared_spec c ho.1.ne_nil
    rw [cut_body]
    · generalize find_shared c (i :: i' :: r) = s at hs
      have hc1 := hc.withNr 0
      obtain ⟨Z, hZ, -, hZsub, -⟩ := hs.cut_top hc1 ho rfl
      have h1 := hs.dataStep hc1 rfl ho
      have hentry : ∀ l, 1 ≤ l → l ≤ s.at_ →
          (if s.c.nr = 0 then s.c else free_branches ((i :: i' :: r).length - 1 - s.at_) s.c
            [.nr]).val ((i :: i' :: r).take l) ≠ 0 ∧
          (s.chain.getD l default).p = .blk ((if s.c.nr = 0 then s.c
            else free_branches ((i :: i' :: r).length - 1 - s.at_) s.c [.nr]).val
              ((i :: i' :: r).take l)) (start l) := by
        intro l hl hl'
        have hlt := hs.lt
        rw [hZ.val_of_not (isPath_take ho.1 hl (by omega))]
        · exact hs.entry l hl hl'
        · rintro ⟨q, hq, hz⟩
          have hlen := hq.length_le
          rw [hZsub q hz] at hlen
          simp only [List.length_take] at hlen
          omega
      have hc2 := hZ.treeOk hc1
      have h2 := clear_ends_dataStep ho s.at_ _ hc2 hs.lt hentry
      have hc3 := (cut_clear_ends ho s.at_ _ hc2 hs.lt hentry).treeOk hc2
      have h0 : DataStep c (c.store .nr 0) := .of_eq rfl rfl
      exact (h0.trans h1).trans (h2.trans (do_indirects_dataStep hc3 (i + 1 - DIRECT)))
    · simp

theorem block_truncate_page_words (c : Ctx) :
    (block_truncate_page c).v.words = c.v.words ∧
      (block_truncate_page c).inode.blkaddr = c.inode.blkaddr := by
  unfold block_truncate_page
  dsimp only
  obtain ⟨t, ht⟩ := (gas_get_block_lookup c (c.inode.i_size / c.v.sbi.s_blocksize)).1
  split_ifs
  · exact ⟨rfl, rfl⟩
  · rw [ht]
    exact ⟨rfl, rfl⟩
  · dsimp only
    rw [ht]
    exact ⟨rfl, rfl⟩

/-- **A truncation leaves the data that stays**, whatever reads fail.  What stays is another
question. -/
theorem gas_truncate_inode_dataStep (hc : TreeOk c) : DataStep c (gas_truncate_inode c) := by
  obtain ⟨hwords, hblk⟩ := block_truncate_page_words c
  have hpage : DataStep c (block_truncate_page c) := .of_eq hwords hblk
  obtain ⟨hnil, hcut⟩ := gas_truncate_inode_eq c
  by_cases ho : cut_path c = []
  · rw [hnil ho]
    exact hpage
  · obtain ⟨mtime, ctime, he⟩ := hcut ho
    rw [he]
    exact hpage.trans ((cut_body_dataStep ((block_truncate_page_cut c).1.treeOk hc) fun h =>
      block_to_path_isLeaf hc.geometry h).retarget rfl rfl)

end Truncate

/-! ## 2. Data blocks

The same by logical block, which is what a reader of the file sees. -/

/-- The logical blocks in `B` that are mapped stay where they are, with what is in them.  The set
may be all blocks, those in front of the end of file, or those of one page. -/
def KeepsBlocks (B : Set Nat) (c c' : Ctx) : Prop :=
  ∀ n ∈ B, c.val (block_to_path c.v n) ≠ 0 →
    c'.val (block_to_path c.v n) = c.val (block_to_path c.v n) ∧
      c'.v.words (c.val (block_to_path c.v n)) = c.v.words (c.val (block_to_path c.v n))

/-- A turn of the owner that fills holes, and changes nothing that is there.  Writing into a
directory and into a file, up to the copying of the data, are such turns. -/
structure FillStep (c c' : Ctx) : Prop extends OwnStep c c' where
  data : KeepsBlocks Set.univ c c'

section Keep

variable {B B' : Set Nat} {c c' c'' : Ctx}

theorem KeepsBlocks.mono (h : KeepsBlocks B c c') (hB : B' ⊆ B) : KeepsBlocks B' c c' :=
  fun n hn => h n (hB hn)

theorem KeepsBlocks.trans (h : KeepsBlocks B c c') (hv : BlockStep c.v c'.v)
    (h' : KeepsBlocks B c' c'') : KeepsBlocks B c c'' := by
  intro n hn hne
  obtain ⟨h1, h2⟩ := h n hn hne
  have h3 := h' n hn
  rw [block_to_path_step hv, h1] at h3
  exact ⟨(h3 hne).1, (h3 hne).2.trans h2⟩

/-- The pointers and the words are the same. -/
theorem KeepsBlocks.of_eq (hw : c'.v.words = c.v.words) (hb : c'.inode.blkaddr = c.inode.blkaddr) :
    KeepsBlocks B c c' := fun n _ _ => ⟨by rw [Ctx.val, Ctx.val, hw, hb], by rw [hw]⟩

/-- A block that is mapped has a path. -/
theorem path_of_mapped (hc : TreeOk c) {n : Nat} (hne : c.val (block_to_path c.v n) ≠ 0) :
    IsLeaf (block_to_path c.v n) ∧ n < c.v.sbi.s_nblocks := by
  have hnil : block_to_path c.v n ≠ [] := fun he => hne (by rw [he]; rfl)
  refine ⟨block_to_path_isLeaf hc.geometry hnil, ?_⟩
  by_contra hge
  exact hnil ((block_to_path_eq_nil_iff hc.geometry.toGeometry).mpr (by omega))

theorem Same.keepsBlocks (hc : TreeOk c) (h : Same c c') : KeepsBlocks B c c' := by
  intro n _ hne
  have hleaf := (path_of_mapped hc hne).1
  exact ⟨h.val hc hleaf.1, h.words _ (hc.used _ hleaf.1 hne)⟩

/-- A splice stores into the cell it was given.  If the test fails it stores nothing at all. -/
theorem splice_branch_words {chain branch : List Indirect} {c2 : Ctx} {b : Nat}
    (hs : splice_branch c chain branch = (c2, true)) (hb : ∀ j, (branch.headD default).p ≠ .blk b j) :
    c2.v.words b = c.v.words b := by
  unfold splice_branch at hs
  dsimp only at hs
  split_ifs at hs
  · simp at hs
  · rw [← (Prod.mk.inj hs).1]
    funext j
    exact load_store_ne (q := .blk b j) fun he => hb j he.symm

/-- An allocating call stores into new blocks, and into a cell of the tree; a block in use without
cells keeps its words. -/
theorem gas_get_block_words (hc : TreeOk c) (block : Nat) {b : Nat} (hu : c.v.inUse b = true)
    (hcell : ∀ q, shape.IsPath q → ∀ j, ¬IsCell c q (.blk b j)) :
    (gas_get_block c block true).c.v.words b = c.v.words b := by
  unfold gas_get_block
  have hleaf := fun h => block_to_path_isLeaf hc.geometry (b := block) h
  generalize block_to_path c.v block = o at hleaf
  cases o with
  | nil => rfl
  | cons i t =>
    have ho := hleaf (by simp)
    have hB := get_branch_spec c ho.1.ne_nil
    simp only [gas_get_block_loop]
    generalize get_branch c (i :: t) = r at hB
    have hr : r.c.v.words b = c.v.words b := by
      obtain ⟨t, ht⟩ := hB.ticked
      rw [ht]
    have hru : r.c.v.inUse b = true := by
      obtain ⟨t, ht⟩ := hB.ticked
      rw [ht]
      exact hu
    have hcr := hB.ticked.treeOk hc
    have hm1 : 1 ≤ r.chain.length := List.length_pos_of_ne_nil hB.pos
    split_ifs
    · exact hr
    · exact hr
    · rfl
    · have hdrop : (i :: t).drop (r.chain.length - 1) ≠ [] := List.ne_nil_of_length_pos (by
        have := hB.le
        rw [List.length_drop]
        omega)
      rcases alloc_branch_spec hcr.geometry.map hcr.padded hdrop (hcr.geometry.lowFirst hcr.padded _)
        (r.chain.getLastD default) with
        ⟨c1, branch, nb, b0, heq, hgr, -, -, -, hhead⟩ | ⟨c1, branch, heq, -, -, -, hw⟩
      · have hc1 : c1.v.words b = c.v.words b := by
          rw [hgr.words b fun hin => ?_, hr]
          rw [(hgr.fresh b hin).2] at hru
          exact Bool.false_ne_true hru
        have hp : (branch.headD default).p = (r.chain.getLastD default).p := by
          rw [List.headD_eq_head?_getD, hhead]
          rfl
        have hlast : ∀ j, (branch.headD default).p ≠ .blk b j := fun j he => by
          have hcell' := hB.last.1
          rw [← hp, he] at hcell'
          exact hcell _ (isPath_take ho.1 hm1 hB.le) j hcell'
        rw [heq]
        dsimp only
        generalize hs : splice_branch c1 r.chain.dropLast branch = s
        obtain ⟨c2, _ | _⟩ := s
        · rfl
        · exact (splice_branch_words hs hlast).trans hc1
      · rw [heq]
        exact (hw b hru).trans hr

/-- **A call of `gas_get_block` keeps what is mapped**, with or without `create` and whether it
succeeds or not. -/
theorem gas_get_block_keeps (hc : TreeOk c) (block : Nat) (create : Bool) :
    KeepsBlocks B c (gas_get_block c block create).c := by
  cases create with
  | false => exact (gas_get_block_lookup c block).1.same.keepsBlocks hc
  | true =>
    obtain ⟨hcr, hnil⟩ := gas_get_block_create hc block
    cases hcr with
    | failed hs _ _ => exact hs.keepsBlocks hc
    | found hs _ _ _ => exact hs.keepsBlocks hc
    | grafted m nb hg _ he =>
      have ho := block_to_path_isLeaf hc.geometry fun h => hnil h he
      intro n _ hne
      have hleaf := (path_of_mapped hc hne).1
      exact ⟨hg.val_of_ne ho.1 hleaf.1 hne, gas_get_block_words hc block (hc.used _ hleaf.1 hne)
        fun q hq j => hc.no_cell hleaf hne hq j⟩

theorem gas_get_block_fillStep (hc : TreeOk c) (block : Nat) (create : Bool) :
    FillStep c (gas_get_block c block create).c :=
  ⟨gas_get_block_ownStep hc block create, gas_get_block_keeps hc block create⟩

/-- **A truncation keeps the blocks in front of the end of file**, where buffers can be read. -/
theorem gas_truncate_inode_keeps (hc : TreeOk c) (hio : ∀ n, c.v.env.bread n = true) :
    KeepsBlocks {n | n < first_cut_block c.v c.inode.i_size} c (gas_truncate_inode c) := by
  intro n hn hne
  obtain ⟨hleaf, hlt⟩ := path_of_mapped hc hne
  have hval := truncate_keeps hc hio hn hlt
  exact ⟨hval, (gas_truncate_inode_dataStep hc _ hleaf (by rw [hval]; exact hne)).2⟩

/-- Contents are no pointers: to write a data block changes no slot of the tree. -/
theorem overwrite_val (hc : TreeOk c) {q r : List Nat} (hq : IsLeaf q) (hne : c.val q ≠ 0)
    (f : Nat → Nat) (hr : shape.IsPath r) :
    ({ c with v := c.v.overwrite (c.val q) f } : Ctx).val r = c.val r :=
  (overwrite_cut hc hq hne f).val_of_not hr fun h => by
    obtain ⟨_, -, hf⟩ := h
    exact hf

/-- Another block is overwritten.  Two logical blocks have different paths, and a block stands in
one slot only. -/
theorem overwrite_keeps (hc : TreeOk c) {m : Nat} (hm : c.val (block_to_path c.v m) ≠ 0)
    (f : Nat → Nat) : KeepsBlocks {n | n ≠ m} c
      { c with v := c.v.overwrite (c.val (block_to_path c.v m)) f } := by
  intro n hn hne
  have hleaf := (path_of_mapped hc hne).1
  have hleafm := (path_of_mapped hc hm).1
  refine ⟨overwrite_val hc hleafm hm f hleaf.1, ?_⟩
  refine Function.update_of_ne (f := c.v.words) (fun he => ?_) f
  exact hn (block_to_path_inj hc.geometry.toGeometry (path_of_mapped hc hne).2 (path_of_mapped hc hm).2
    (hc.one _ _ hleaf.1 hleafm.1 hne he))

/-! ## 3. Filling holes

Steps of the owner that keep all the data there is. -/

theorem Ticked.fillStep (hc : TreeOk c) (h : Ticked c c') : FillStep c c' :=
  ⟨h.same.ownStep hc, h.same.keepsBlocks hc⟩

theorem FillStep.refl (hc : TreeOk c) : FillStep c c := (Ticked.refl c).fillStep hc

theorem FillStep.trans (h : FillStep c c') (h' : FillStep c' c'') : FillStep c c'' :=
  ⟨h.toOwnStep.trans h'.toOwnStep, h.data.trans h.vol h'.data⟩

theorem FillStep.withInode {i : Inode} (h : FillStep c c') (hb : i.blkaddr = c'.inode.blkaddr)
    (hm : i.i_mode = c'.inode.i_mode) (hi : i.i_ino = c'.inode.i_ino) :
    FillStep c { c' with inode := i } :=
  ⟨h.toOwnStep.withInode hb hm hi, h.data.trans h.vol (.of_eq rfl hb)⟩

end Keep

end GasFs
