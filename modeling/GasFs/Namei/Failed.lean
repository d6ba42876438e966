/-
# What a failed call leaves behind

A call of `gas_namei.c` that returns an error should leave no trace (`NoTrace`): the same namespace and
link counts, and the same two maps.  `gas_mkdir`, `gas_unlink` and `gas_rmdir` do leave none.

`add_nondir` drops the reference to the inode it could not enter, and not its link.  So a `gas_mknod`
or `gas_create` that gets an inode and cannot enter it leaves the inode behind, `gas_symlink` does so
once the body is written, and `gas_link` leaves a link too many.  `failed_leaves_no_trace_iff` has the
conditions.

An undone `gas_mkdir` or `gas_symlink` evicts an inode with at most one block, whose pointer is in the
inode: it is given back without a read (`gas_evict_inode_direct`), so no failure gets in the way.

The proofs go through a call from its failure backwards.  A failed entry or deletion takes no block
(§2), so what is left to undo is an inode.  That inode is new and holds at most a first block
(`Thin`), and `Hatched` says that nothing else has happened since it was made: evicting it restores
all that `NoTrace` speaks of.

The page cache is no part of a trace, and neither are times: a failed call may well have read pages
and touched its directory.
-/
import GasFs.Itree.Direct
import GasFs.System

namespace GasFs

open Bytes PtrTree SlotTable Namespace

/-! ## 1. Traces

What a caller could notice: the names, the link counts, and which blocks and numbers are in use.
Traces compose, so a call that fails behind a few scans is a chain of them. -/

/-- The namespace, the link counts and the two maps are the same.  The first free number and the
first free block are then the same as before, too. -/
structure NoTrace (d d' : Fs Nat) : Prop where
  space : d'.space = d.space
  blocks : ∀ b, d'.vol.inUse b = d.vol.inUse b
  numbers : ∀ k, d'.vol.inodeInUse k = d.vol.inodeInUse k

section Trace

variable {d d' d'' : Fs Nat} {k : Nat} {i : Inode} {c : Ctx}

/-- Nothing done, nothing left. -/
theorem NoTrace.refl (d : Fs Nat) : NoTrace d d := ⟨rfl, fun _ => rfl, fun _ => rfl⟩

/-- What leaves no trace twice leaves none. -/
theorem NoTrace.trans (h : NoTrace d d') (h' : NoTrace d' d'') : NoTrace d d'' :=
  ⟨h'.space.trans h.space, fun b => (h'.blocks b).trans (h.blocks b), fun k =>
    (h'.numbers k).trans (h.numbers k)⟩

/-- A request leaves none. -/
theorem noTrace_tick (d : Fs Nat) (tick : Nat) :
    NoTrace d { d with vol := { d.vol with tick := tick } } := ⟨rfl, fun _ => rfl, fun _ => rfl⟩

/-- Nor does a scan. -/
theorem noTrace_scan (hk : d.InCore k) (h : Ticked (d.ctx k) c) : NoTrace d (d.set k c) := by
  obtain ⟨i, hk⟩ := hk
  rw [Fs.set_of_ticked hk h]
  obtain ⟨t, rfl⟩ := h
  exact noTrace_tick d t

end Trace

/-! ## 2. What fails takes no block

`gas_add_link` and `gas_delete_entry` fail at the chunk of their record or in front of it.  The
chunk of a page is one block; when it cannot be had, what was taken on the way is given back by
`gas_get_block` itself. -/

section Fails

variable {c c1 : Ctx} {e : Errno}

/-- With the page up to date a chunk that cannot be prepared takes no block.  The indirect blocks
taken on the way are given back before the error is returned. -/
theorem begin_fails (hc : TreeOk c) {pos len : Nat}
    (he : (__block_write_begin c pos len true).2 = some e) (b : Nat) :
    (__block_write_begin c pos len true).1.v.inUse b = c.v.inUse b := by
  obtain ⟨hcreated, -⟩ := gas_get_block_create hc (pos / PAGE_CACHE_SIZE)
  unfold __block_write_begin at he ⊢
  dsimp only at he ⊢
  cases hcreated with
  | failed hs hm herr =>
    rw [if_pos herr]
    exact hs.marks b
  | found hs hne hm herr =>
    rw [herr] at he
    simp at he
  | grafted m nb hg hm herr =>
    rw [herr] at he
    simp at he

/-- A record that cannot be written takes no block. -/
theorem got_it_fails (hc : TreeOk c) {n p : Nat} {name : List UInt8} {ino : Nat}
    (he : (got_it c n p name ino).2 = some e) (b : Nat) :
    (got_it c n p name ino).1.v.inUse b = c.v.inUse b := by
  have hfail := fun e he => @begin_fails c e hc (PAGE_CACHE_SIZE * n + p) sizeof_gas_dir_entry he b
  unfold got_it gas_dir_prepare_chunk at he ⊢
  dsimp only at he ⊢
  generalize __block_write_begin c (PAGE_CACHE_SIZE * n + p) sizeof_gas_dir_entry true = r at he hfail
  obtain ⟨c1, _ | e'⟩ := r
  · simp at he
  · exact hfail e' rfl

/-- The tree does not depend on the page cache. -/
theorem Cleared.treeOk (h : Cleared c c1) (hc : TreeOk c) : TreeOk c1 := by
  obtain ⟨tick, hv⟩ := h.vol
  obtain ⟨pages, hi⟩ := h.inode
  have hticked : TreeOk { c with v := { c.v with tick := tick } } := Ticked.treeOk ⟨tick, rfl⟩ hc
  have hclear := hticked.withInode (i := { c.inode with pages := pages }) rfl
  obtain ⟨v1, i1, nr1⟩ := c1
  obtain rfl : v1 = _ := hv
  obtain rfl : i1 = _ := hi
  exact ⟨hclear.geometry, hclear.padded, hclear.one, hclear.zone, hclear.used⟩

/-- **`gas_add_link` that fails takes no block.** It may have cleared the record behind the end,
which is on a page and not in a map. -/
theorem gas_add_link_fails (hc : TreeOk c) (hd : DirOk c.inode) {name : List UInt8} (hn : IsName name)
    {ino : Nat} (he : (gas_add_link c name ino).2 = some e) (b : Nat) :
    (gas_add_link c name ino).1.v.inUse b = c.v.inUse b := by
  have hscan := gas_add_link_scan hd hn ino
  generalize gas_add_link c name ino = r at hscan he
  cases hscan with
  | unread c1 ht n hp hr =>
    obtain ⟨t, rfl⟩ := ht
    rfl
  | present c1 ht t v hs hp =>
    obtain ⟨t, rfl⟩ := ht
    rfl
  | free c1 hcl t ht hp _ _ =>
    obtain ⟨tick, hv⟩ := hcl.vol
    rw [got_it_fails (hcl.treeOk hc) he b, hv]
    rfl

/-- **So does `gas_delete_entry`.** -/
theorem gas_delete_entry_fails (hc : TreeOk c) {n p : Nat}
    (he : (gas_delete_entry c n p).2 = some e) (b : Nat) :
    (gas_delete_entry c n p).1.v.inUse b = c.v.inUse b := by
  have hfail := fun e he => @begin_fails c e hc (PAGE_CACHE_SIZE * n + p) sizeof_gas_dir_entry he b
  unfold gas_delete_entry gas_dir_prepare_chunk at he ⊢
  dsimp only at he ⊢
  generalize __block_write_begin c (PAGE_CACHE_SIZE * n + p) sizeof_gas_dir_entry true = r at he hfail
  obtain ⟨c1, _ | e'⟩ := r
  · simp at he
  · exact hfail e' rfl

end Fails

/-! ## 3. Names that are not removed

Both calls do all that can fail before they change anything else, so nothing has to be taken
back. -/

section Removal

variable {d d' : Fs Nat} {dir x : Nat} {name : List UInt8} {e : Errno}

/-- The tree of a directory. -/
theorem Fs.Books.treeOk (h : d.Books) (hk : d.HasTree x) : TreeOk (d.ctx x) := by
  obtain ⟨i, hi, hb⟩ := hk
  rw [Fs.ctx, Fs.inode_of hi]
  exact h.sound.treeOk hi hb

/-- **`gas_unlink` that fails leaves no trace.** The record is deleted before the link is taken, so
a failure comes in front of both. -/
theorem gas_unlink_fails (h : d.Books) (hdirs : d.DirsOk) (hn : IsName name)
    (hdir : d.isDir dir = true) (hx : d.InCore x) (hr : gas_unlink d dir name x = (d', some e)) :
    NoTrace d d' := by
  obtain ⟨i, hi⟩ := hx
  obtain ⟨hframe, -, hout⟩ := hdirs.unlink hn hdir hi
  have hblocks : ∀ b, (gas_unlink d dir name x).1.vol.inUse b = d.vol.inUse b := by
    intro b
    have htick := gas_find_entry_ticked (d.ctx dir) name
    have hok := htick.treeOk (h.treeOk (Fs.hasTree_of_isDir hdir))
    have hfails := fun n p e he => gas_delete_entry_fails (e := e) hok (n := n) (p := p) he b
    have hmark : (gas_find_entry (d.ctx dir) name).2.v.inUse b = d.vol.inUse b := by
      obtain ⟨t, he⟩ := htick
      rw [he]
      rfl
    unfold gas_unlink at hr ⊢
    generalize gas_find_entry (d.ctx dir) name = r at hr hfails hmark
    obtain ⟨_ | ⟨n, p⟩, c⟩ := r
    · exact hmark
    · have hfails := hfails n p
      dsimp only at hr hfails ⊢
      generalize gas_delete_entry c n p = r at hr hfails
      obtain ⟨c', _ | e'⟩ := r
      · simp at hr
      · exact (hfails e' rfl).trans hmark
  rw [hr] at hframe hout hblocks
  rcases hout with ⟨e', -, hspace⟩ | ⟨ho, -⟩
  · exact ⟨hspace, hblocks, hframe.bits⟩
  · simp at ho

/-- **So does `gas_rmdir`.** -/
theorem gas_rmdir_fails (h : d.Books) (hdirs : d.DirsOk) (hn : IsName name)
    (hdir : d.isDir dir = true) (hx : d.InCore x) (hr : gas_rmdir d dir name x = (d', some e)) :
    NoTrace d d' := by
  have htick := gas_empty_dir_ticked (d.ctx x)
  have hscan := noTrace_scan hx htick
  have hstays := h.scan hx htick
  obtain ⟨i, hi⟩ := hx
  have hset := Fs.set_of_ticked hi htick
  unfold gas_rmdir at hr
  generalize gas_empty_dir (d.ctx x) = r at hr hscan hstays hset
  obtain ⟨_ | _, c⟩ := r
  · obtain ⟨rfl, -⟩ := Prod.mk.inj hr
    exact hscan
  · dsimp only at hr hscan hstays hset
    rw [hset] at hr hscan hstays
    -- the directories are as before the scan
    have hun := fun hr => @gas_unlink_fails _ d' dir x name e hstays.books hdirs hn hdir ⟨i, hi⟩ hr
    generalize gas_unlink { d with vol := c.v } dir name x = r at hr hun
    obtain ⟨d1, _ | e'⟩ := r
    · simp at hr
    · obtain ⟨rfl, he⟩ := Prod.mk.inj hr
      exact hscan.trans (hun (by rw [he]))

end Removal

/-! ## 4. A tree without indirect blocks

A new inode has a direct block or none.  Giving it back reads nothing, which is shown by running the
same cut under any other kernel (`Ctx.under`) with the same result: in particular under one that
reads every buffer, where the cut is known to be exact. -/

section Direct

variable {c : Ctx} {v : Vol} {i : Inode}

/-- The same under another kernel.  Only the answers differ; blocks, maps and requests made are the
same. -/
def Ctx.under (c : Ctx) (env : Env) : Ctx := { c with v := { c.v with env := env } }

/-- To free a block is to write a bit, whatever the kernel. -/
theorem gas_free_block_under (v : Vol) (env : Env) (b : Nat) :
    gas_free_block { v with env := env } b = { gas_free_block v b with env := env } := by
  by_cases h1 : b < v.sbi.s_data_block_start ∨ v.sbi.s_nblocks ≤ b
  · have h : ∀ env, gas_free_block { v with env := env } b = { v with env := env } := fun _ => if_pos h1
    rw [h env, show gas_free_block v b = v from h v.env]
  by_cases h2 : v.sbi.s_bam_blocks ≤ b / 2 ^ (v.s_blocksize_bits + 3)
  · have h : ∀ env, gas_free_block { v with env := env } b = { v with env := env } := fun _ =>
      (if_neg h1).trans (if_pos h2)
    rw [h env, show gas_free_block v b = v from h v.env]
  · have h : ∀ env, gas_free_block { v with env := env } b = { v with
        env := env
        bam := write_bit v.bam (b / 2 ^ (v.s_blocksize_bits + 3))
          (b % 2 ^ (v.s_blocksize_bits + 3)) false } := fun _ => (if_neg h1).trans (if_neg h2)
    rw [h env, show gas_free_block v b = _ from h v.env]

/-- So is to free the block under a pointer. -/
theorem free_cell_under (c : Ctx) (env : Env) (p : Cell) :
    free_cell 0 (c.under env) p = (free_cell 0 c p).under env := by
  have hload : (c.under env).load p = c.load p := by cases p <;> rfl
  have hstore : (c.under env).store p 0 = (c.store p 0).under env := by cases p <;> rfl
  unfold free_cell
  dsimp only
  rw [hload, hstore]
  split
  · rfl
  · unfold Ctx.under
    dsimp only
    rw [gas_free_block_under]

/-- Data blocks are given back without a read. -/
theorem free_data_under (env : Env) : ∀ (ps : List Cell) (c : Ctx),
    free_data (c.under env) ps = (free_data c ps).under env
  | [], _ => rfl
  | p :: ps, c => by
    have hfree : ∀ c, free_data c (p :: ps) = free_data (free_cell 0 c p) ps := fun _ => rfl
    rw [hfree, hfree, free_cell_under, free_data_under env ps]

/-- The other pointers stay. -/
theorem free_data_other {p : Cell} : ∀ (ps : List Cell) (c : Ctx), p ∉ ps →
    (free_data c ps).load p = c.load p
  | [], _, _ => rfl
  | q :: ps, c, hp => by
    rw [List.mem_cons, not_or] at hp
    have hfree : free_data c (q :: ps) = free_data (free_cell 0 c q) ps := rfl
    rw [hfree, free_data_other ps _ hp.2]
    unfold free_cell
    dsimp only
    split_ifs
    · rfl
    · rw [load_with_free, load_store_ne hp.1]

/-- Where there are no trees the loop at `do_indirects` does nothing. -/
theorem do_indirects_null (h : ∀ j, DIRECT ≤ j → c.inode.blkaddr j = 0) (k : Nat) :
    (do_indirects k c).v = c.v ∧ (do_indirects k c).inode = c.inode := by
  have hloop : ∀ (l : List Nat) (c : Ctx), (∀ j, DIRECT ≤ j → c.inode.blkaddr j = 0) →
      (l.foldl (fun c first_whole =>
        let c := c.store .nr (c.load (.idata (DIRECT + first_whole)))
        if c.nr = 0 then c
        else free_branches (first_whole + 1) (c.store (.idata (DIRECT + first_whole)) 0) [.nr]) c).v =
          c.v ∧
      (l.foldl (fun c first_whole =>
        let c := c.store .nr (c.load (.idata (DIRECT + first_whole)))
        if c.nr = 0 then c
        else free_branches (first_whole + 1) (c.store (.idata (DIRECT + first_whole)) 0) [.nr]) c).inode =
          c.inode := by
    intro l
    induction l with
    | nil => exact fun _ _ => ⟨rfl, rfl⟩
    | cons k l ih =>
      intro c hc
      have hnull : (c.store .nr (c.load (.idata (DIRECT + k)))).nr = 0 :=
        hc _ (Nat.le_add_right _ _)
      rw [List.foldl_cons]
      dsimp only
      rw [if_pos hnull]
      exact ih _ hc
  exact hloop _ c h

/-- An empty file is cut at its first block, if the volume has one. -/
theorem gas_truncate_inode_zero (hg : Geometry c.v) (hs : c.inode.i_size = 0) :
    gas_truncate_inode c = if c.v.sbi.s_nblocks = 0 then c
      else
        let c := do_indirects 0 (free_data c (idata_cells 0 DIRECT))
        { c with inode := { c.inode with i_mtime := c.v.now, i_ctime := c.v.now } } := by
  have hpage : block_truncate_page c = c := by
    unfold block_truncate_page
    dsimp only
    rw [hs, if_pos (Nat.zero_mod _)]
  have hfirst : first_cut_block c.v c.inode.i_size = 0 := by
    rw [first_cut_block_eq hg, hs]
  have hpath := block_to_path_eq hg 0
  rw [if_pos (by decide : 0 < 6), Nat.cast_zero] at hpath
  unfold gas_truncate_inode
  dsimp only
  rw [hpage, hfirst, Nat.cast_zero, hpath]
  by_cases hn : c.v.sbi.s_nblocks = 0
  · rw [if_pos hn, if_pos hn.le]
  · rw [if_neg hn, if_neg (by omega)]

/-- **The blocks of such a tree** are given back whatever kernel it is. -/
theorem gas_truncate_inode_under (hg : Geometry c.v) (hs : c.inode.i_size = 0)
    (hdirect : ∀ j, DIRECT ≤ j → c.inode.blkaddr j = 0) (env : Env) (b : Nat) :
    (gas_truncate_inode (c.under env)).v.inUse b = (gas_truncate_inode c).v.inUse b := by
  have hdata : ∀ j, DIRECT ≤ j → (free_data c (idata_cells 0 DIRECT)).inode.blkaddr j = 0 := by
    intro j hj
    have hload := free_data_other (p := .idata j) (idata_cells 0 DIRECT) c fun hm => by
      obtain ⟨k, -, hk, he⟩ := mem_idata_cells.mp hm
      exact absurd (Cell.idata.inj he) (by omega)
    exact hload.trans (hdirect j hj)
  rw [gas_truncate_inode_zero hg hs, gas_truncate_inode_zero (c := c.under env) { hg with } hs]
  by_cases hn : c.v.sbi.s_nblocks = 0
  · rw [if_pos hn, if_pos (show (c.under env).v.sbi.s_nblocks = 0 from hn)]
    rfl
  · rw [if_neg hn, if_neg (show ¬(c.under env).v.sbi.s_nblocks = 0 from hn), free_data_under]
    generalize free_data c (idata_cells 0 DIRECT) = c' at hdata
    dsimp only
    rw [(do_indirects_null hdata 0).1, (do_indirects_null (c := c'.under env) hdata 0).1]
    rfl

/-- Null pointers are skipped. -/
theorem free_data_null : ∀ (ps : List Cell) (c : Ctx), (∀ p ∈ ps, c.load p = 0) → free_data c ps = c
  | [], _, _ => rfl
  | p :: ps, c, h => by
    have hcell : free_cell 0 c p = c := if_pos (h p (List.mem_cons_self ..))
    have hfree : free_data c (p :: ps) = free_data (free_cell 0 c p) ps := rfl
    rw [hfree, hcell, free_data_null ps c fun q hq => h q (List.mem_cons_of_mem _ hq)]

/-- Where there are no pointers there is nothing to cut. -/
theorem gas_truncate_inode_null (hg : Geometry c.v) (hs : c.inode.i_size = 0)
    (h0 : ∀ j, c.inode.blkaddr j = 0) : (gas_truncate_inode c).v = c.v ∧
      (gas_truncate_inode c).inode.blkaddr = c.inode.blkaddr := by
  rw [gas_truncate_inode_zero hg hs]
  split_ifs
  · exact ⟨rfl, rfl⟩
  · rw [free_data_null _ c fun p hp => by
      obtain ⟨k, -, -, rfl⟩ := mem_idata_cells.mp hp
      exact h0 k]
    obtain ⟨hv, hi⟩ := do_indirects_null (c := c) (fun j _ => h0 j) 0
    have hptr : (do_indirects 0 c).inode.blkaddr = c.inode.blkaddr := by rw [hi]
    exact ⟨hv, hptr⟩

/-- Giving a number back leaves the block map alone. -/
theorem gas_free_inode_inUse (v : Vol) (inode : Inode) (b : Nat) :
    (gas_free_inode v inode).inUse b = v.inUse b := by
  obtain ⟨words, hclear, -⟩ := gas_clear_inode_eq v inode.i_ino
  unfold gas_free_inode
  dsimp only
  split_ifs
  · rfl
  · rfl
  · rw [hclear]
    rfl

/-- **An inode that holds direct blocks only** gives them back when it is evicted, with no read.  A
tree with indirect blocks would need reads, and lose what lies behind a read that fails. -/
theorem gas_evict_inode_direct (hc : TreeOk ⟨v, i, 0⟩) (hl : i.i_nlink = 0)
    (hb : has_blocks i.i_mode = true) (hdirect : ∀ j, DIRECT ≤ j → i.blkaddr j = 0) (b : Nat) :
    (gas_evict_inode ⟨v, i, 0⟩).v.inUse b = true ↔ v.inUse b = true ∧ ¬Holds ⟨v, i, 0⟩ b := by
  have hok : TreeOk (⟨v, i.emptied, 0⟩ : Ctx) := hc.withInode rfl
  have hcalm : TreeOk ((⟨v, i.emptied, 0⟩ : Ctx).under calm_env) :=
    ⟨⟨{ hok.geometry.toGeometry with }, hok.geometry.nblocks_le⟩, hok.padded, hok.one, hok.zone, hok.used⟩
  obtain ⟨Z, hcut, -⟩ := gas_truncate_inode_is_cut hcalm
  have hown := hcut.ownStep hcalm
  have hnone := truncate_zero_holds hcalm rfl
  have hsame := gas_truncate_inode_under hok.geometry.toGeometry rfl hdirect calm_env b
  have hevict : (gas_evict_inode ⟨v, i, 0⟩).v.inUse b =
      (gas_truncate_inode ⟨v, i.emptied, 0⟩).v.inUse b := by
    have htruncate : gas_truncate ⟨v, i.emptied, 0⟩ = gas_truncate_inode ⟨v, i.emptied, 0⟩ := if_pos hb
    rw [gas_evict_inode_nolinks v hl, htruncate]
    generalize gas_truncate_inode ⟨v, i.emptied, 0⟩ = c'
    dsimp only
    split_ifs
    · exact gas_free_inode_inUse _ _ b
    · rfl
  rw [hevict, ← hsame]
  constructor
  · intro hu
    exact (hown.exact (fun _ => rfl) b hu).resolve_left (hnone b)
  · rintro ⟨hu, hno⟩
    exact (hown.keep b hu hno).1

/-- What is held through direct pointers only. -/
theorem holds_direct (hdirect : ∀ j, DIRECT ≤ j → c.inode.blkaddr j = 0) (b : Nat) :
    Holds c b ↔ b ≠ 0 ∧ ∃ j, c.inode.blkaddr j = b := by
  refine and_congr_right fun hne => ⟨?_, ?_⟩
  · rintro ⟨_ | ⟨j, r⟩, hq, he⟩
    · exact hq.elim
    · obtain ⟨-, hr, -⟩ := isPath_cons.mp hq
      rw [Ctx.val, PtrTree.val] at he
      by_cases hj : DIRECT ≤ j
      · rw [hdirect j hj, walk_zero] at he
        exact absurd he.symm hne
      · have hheight : j - 5 = 0 := Nat.sub_eq_zero_of_le (by rw [DIRECT] at hj; omega)
        rw [hheight] at hr
        obtain rfl := List.eq_nil_of_length_eq_zero (Nat.le_zero.mp hr)
        exact ⟨j, he⟩
  · rintro ⟨j, he⟩
    have hj : j < DIRECT := by
      by_contra hge
      rw [hdirect j (not_lt.mp hge)] at he
      exact hne he.symm
    rw [DIRECT] at hj
    exact ⟨[j], isPath_cons.mpr ⟨show j < 9 by omega, Nat.zero_le _, fun _ hm =>
      absurd hm List.not_mem_nil⟩, he⟩

/-- Since the volume was `v`, what the inode holds was marked, through direct pointers.  The volume
`v` is the one in front of the call. -/
structure Thin (v : Vol) (c : Ctx) : Prop where
  direct : ∀ j, DIRECT ≤ j → c.inode.blkaddr j = 0
  marks : ∀ b, c.v.inUse b = true ↔ v.inUse b = true ∨ b ≠ 0 ∧ ∃ j, c.inode.blkaddr j = b
  fresh : ∀ b, b ≠ 0 → (∃ j, c.inode.blkaddr j = b) → v.inUse b = false

/-- An inode that holds nothing. -/
theorem thin_empty (h0 : ∀ j, c.inode.blkaddr j = 0) (hv : ∀ b, c.v.inUse b = v.inUse b) : Thin v c := by
  have hno : ∀ b, b ≠ 0 → ¬∃ j, c.inode.blkaddr j = b := by
    rintro b hb ⟨j, hj⟩
    exact hb (hj.symm.trans (h0 j))
  refine ⟨fun j _ => h0 j, fun b => ?_, fun b hb hj => absurd hj (hno b hb)⟩
  rw [hv, or_iff_left fun h => hno b h.1 h.2]

/-- Equal pointers and equal marks. -/
theorem Thin.congr {c' : Ctx} (h : Thin v c) (hp : c'.inode.blkaddr = c.inode.blkaddr)
    (hv : ∀ b, c'.v.inUse b = c.v.inUse b) : Thin v c' where
  direct j hj := by
    rw [hp]
    exact h.direct j hj
  marks b := by
    rw [hv, hp]
    exact h.marks b
  fresh b hb hj := by
    rw [hp] at hj
    exact h.fresh b hb hj

/-- The same marks before. -/
theorem Thin.since {v' : Vol} (h : Thin v c) (hv : ∀ b, v'.inUse b = v.inUse b) : Thin v' c where
  direct := h.direct
  marks b := by
    rw [hv]
    exact h.marks b
  fresh b hb hj := by
    rw [hv]
    exact h.fresh b hb hj

/-- **Evicted, it is as if it never was.** -/
theorem Thin.evict {w : Vol} (h : Thin w ⟨v, i, 0⟩) (hc : TreeOk ⟨v, i, 0⟩) (hl : i.i_nlink = 0)
    (hb : has_blocks i.i_mode = true) (b : Nat) :
    (gas_evict_inode ⟨v, i, 0⟩).v.inUse b = w.inUse b := by
  have hmarks := h.marks b
  dsimp only at hmarks
  rw [Bool.eq_iff_iff, gas_evict_inode_direct hc hl hb h.direct b, hmarks, holds_direct h.direct b]
  constructor
  · rintro ⟨hu | hh, hno⟩
    · exact hu
    · exact absurd hh hno
  · intro hu
    refine ⟨Or.inl hu, fun hh => ?_⟩
    rw [h.fresh b hh.1 hh.2] at hu
    simp at hu

/-- A free block of the zone: the volume is not full. -/
theorem not_bamFull (hg : Geometry v) {b : Nat} (hz : v.InZone b) (hb : v.inUse b = false) :
    ¬v.BamFull := by
  intro hfull
  have hcov := hg.covers
  have hlt := hz.2
  have hbit : b % 32768 < v.sbi.s_bits_per_block := by
    rw [hg.bits_per_block]
    exact Nat.mod_lt _ (by decide)
  rw [hg.inUse, hfull (b / 32768) (by omega) _ hbit] at hb
  simp at hb

/-- Without a data zone it is full. -/
theorem bamFull_of_no_blocks (hg : Geometry v) (hp : v.MapPadded) (h0 : v.sbi.s_nblocks = 0) :
    v.BamFull := by
  intro i hi bit hbit
  rw [hg.bits_per_block] at hbit
  obtain ⟨hdiv, hmod⟩ := split_block (i := i) hbit
  have hpad := hp (i * 32768 + bit) (by rw [hg.bits_per_block]; omega) fun hz => by
    have hlt := hz.2
    omega
  rw [hg.inUse, hdiv, hmod] at hpad
  exact hpad

/-- **The first block** of an inode that holds nothing is taken, or the volume is full. -/
theorem begin_thin (hg : TreeGeometry c.v) (hp : c.v.MapPadded) (h0 : ∀ j, c.inode.blkaddr j = 0)
    (len : Nat) :
    (∃ c', __block_write_begin c 0 len false = (c', none) ∧ Thin c.v c' ∧ ¬c.v.BamFull) ∨
      c.v.BamFull ∧ ∃ e, __block_write_begin c 0 len false = (c, some e) := by
  rcases Nat.eq_zero_or_pos c.v.sbi.s_nblocks with hn | hn
  · have hnil : block_to_path c.v (0 : Nat) = [] :=
      (block_to_path_eq_nil_iff hg.toGeometry).mpr hn.le
    have hget : gas_get_block c 0 true = ⟨c, some Errno.EIO, none, false⟩ := by
      rw [gas_get_block, hnil]
    refine Or.inr ⟨bamFull_of_no_blocks hg.toGeometry hp hn, Errno.EIO, ?_⟩
    unfold __block_write_begin
    dsimp only
    rw [Nat.zero_div, hget]
    rfl
  have hget := gas_get_block_direct hg hp (n := 0) (by decide) hn
  unfold __block_write_begin
  dsimp only
  rw [Nat.zero_div]
  generalize gas_get_block c 0 true = r at hget
  cases hget with
  | found hne => exact absurd (h0 0) hne
  | new b hint hz hzone hfree =>
    have hbne : b ≠ 0 := (lt_of_lt_of_le hg.data_pos hzone.1).ne'
    have hptr : ∀ b', b' ≠ 0 → ((∃ j, Function.update c.inode.blkaddr 0 b j = b') ↔ b' = b) := by
      intro b' hb'
      constructor
      · rintro ⟨j, hj⟩
        by_cases h : j = 0
        · subst h
          rw [Function.update_self] at hj
          exact hj.symm
        · rw [Function.update_of_ne h, h0] at hj
          exact absurd hj.symm hb'
      · rintro rfl
        exact ⟨0, Function.update_self ..⟩
    refine Or.inl ⟨_, rfl, ⟨fun j hj => ?_, fun b' => ?_, fun b' hb' hj => ?_⟩,
      not_bamFull hg.toGeometry hzone hfree⟩
    · have hne : j ≠ 0 := fun h => absurd (h ▸ hj) (by decide)
      exact (Function.update_of_ne hne _ _).trans (h0 j)
    · rw [hg.inUse_write b true hint b']
      by_cases h : b' = b
      · rw [if_pos h]
        exact iff_of_true rfl (Or.inr ⟨h ▸ hbne, (hptr b' (h ▸ hbne)).mpr h⟩)
      · rw [if_neg h, or_iff_left fun hh => h ((hptr b' hh.1).mp hh.2)]
    · rw [(hptr b' hb').mp hj]
      exact hfree
  | full hz hfull => exact Or.inr ⟨hfull, .ENOSPC, rfl⟩

/-- **A directory that is made** has one block, or none. -/
theorem gas_make_empty_thin (hg : TreeGeometry c.v) (hp : c.v.MapPadded)
    (h0 : ∀ j, c.inode.blkaddr j = 0) (dir : Nat) : Thin c.v (gas_make_empty c dir).1 := by
  have hbegin := begin_thin (c := { c with v := { c.v with tick := c.v.tick + 1 } })
    { hg with } hp h0 (2 * sizeof_gas_dir_entry)
  -- the first block of an inode without pointers is taken, or nothing is
  unfold gas_make_empty
  dsimp only
  split_ifs
  · exact thin_empty h0 fun _ => rfl
  obtain ⟨c', he, hthin, -⟩ | ⟨-, e, he⟩ := hbegin
  · rw [he]
    have hthin : Thin c.v _ := hthin.since fun _ => rfl
    dsimp only
    rw [gas_dir_commit_chunk_eq]
    exact hthin.congr rfl fun _ => rfl
  · rw [he]
    exact thin_empty h0 fun _ => rfl

/-- Nothing is cut from a new inode. -/
theorem gas_write_failed_null (hg : Geometry c.v) (hs : c.inode.i_size = 0)
    (h0 : ∀ j, c.inode.blkaddr j = 0) (to_ : Nat) : (gas_write_failed c to_).v = c.v ∧
      (gas_write_failed c to_).inode.blkaddr = c.inode.blkaddr := by
  unfold gas_write_failed gas_truncate
  split_ifs
  · exact gas_truncate_inode_null (c := { c with inode := truncate_pagecache c.inode c.inode.i_size })
      hg hs h0
  · exact ⟨rfl, rfl⟩
  · exact ⟨rfl, rfl⟩

/-- **The body of a symbolic link** has one block, or none; it cannot be written when there is no memory
or no block. -/
theorem page_symlink_thin (hg : TreeGeometry c.v) (hp : c.v.MapPadded) (hs : c.inode.i_size = 0)
    (h0 : ∀ j, c.inode.blkaddr j = 0) (symname : List UInt8) :
    Thin c.v (page_symlink c symname).1 ∧
      ((page_symlink c symname).2 = none ↔ c.v.env.mem c.v.tick = true ∧ ¬c.v.BamFull) := by
  -- the page, then its block
  generalize ht : ({ c with v := { c.v with tick := c.v.tick + 1 } } : Ctx) = t
  have hmarks : ∀ b, t.v.inUse b = c.v.inUse b := by
    rw [← ht]
    exact fun _ => rfl
  have hgt : TreeGeometry t.v := by
    rw [← ht]
    exact { hg with }
  have hbegin := begin_thin hgt (by rw [← ht]; exact hp) (by rw [← ht]; exact h0) symname.length
  obtain ⟨hv, hptr⟩ := gas_write_failed_null hgt.toGeometry (by rw [← ht]; exact hs)
    (by rw [← ht]; exact h0) (0 + symname.length)
  have hfailed : Thin c.v (gas_write_failed t (0 + symname.length)) := by
    refine thin_empty (fun j => ?_) fun b => ?_
    · rw [hptr, ← ht]
      exact h0 j
    · rw [hv, hmarks]
  have hfull : t.v.BamFull ↔ c.v.BamFull := by
    rw [← ht]
    exact Iff.rfl
  unfold page_symlink gas_write_begin block_write_begin
  dsimp only
  rw [ht]
  by_cases hm : c.v.env.mem c.v.tick = false
  · rw [if_pos hm, hm]
    exact ⟨hfailed, by simp⟩
  have hmem : c.v.env.mem c.v.tick = true := by simpa using hm
  rw [if_neg hm, hmem]
  obtain ⟨c', he, hthin, hfree⟩ | ⟨hfull', e, he⟩ := hbegin
  · rw [he]
    rw [hfull] at hfree
    have hthin : Thin c.v _ := hthin.since fun b => (hmarks b).symm
    refine ⟨?_, by simp [hfree]⟩
    simp only [gas_write_end, Nat.lt_irrefl, false_and, if_false]
    split_ifs <;> exact hthin.congr rfl fun _ => rfl
  · rw [he]
    exact ⟨hfailed, by simp [hfull.mp hfull']⟩

end Direct

/-! ## 5. New inodes that go again

`Hatched` is kept by everything a call does to its new inode, a failed entry beside it included, and
the last `iput` of such an inode leaves no trace of it. -/

/-- What the space shows of an inode: its links, and the table of a directory.  Two inodes that show
the same are the same to the namespace. -/
def Inode.shown (i : Inode) : BitVec 32 × Option (List (Option (List UInt8 × Nat))) :=
  (i.i_nlink, if S_ISDIR i.i_mode && !i.dead then some i.slots else none)

section New

variable {d d' m : Fs Nat} {k dir : Nat} {i : Inode} {name : List UInt8} {e : Errno}

/-- The space is made of what each inode shows. -/
theorem Fs.space_congr (h : ∀ j, (d'.inodes j).map Inode.shown = (d.inodes j).map Inode.shown) :
    d'.space = d.space := by
  have hcases : ∀ j, (d'.inodes j = none ∧ d.inodes j = none) ∨
      ∃ i' i, d'.inodes j = some i' ∧ d.inodes j = some i ∧ i'.shown = i.shown := by
    intro j
    have hj := h j
    cases hd' : d'.inodes j with
    | none =>
      rw [hd', Option.map_none, eq_comm, Option.map_eq_none_iff] at hj
      exact Or.inl ⟨rfl, hj⟩
    | some i' =>
      rw [hd', Option.map_some, eq_comm, Option.map_eq_some_iff] at hj
      obtain ⟨i, hi, he⟩ := hj
      exact Or.inr ⟨i', i, rfl, hi, he.symm⟩
  have hdir : ∀ j, d'.isDir j = d.isDir j := by
    intro j
    rcases hcases j with ⟨h', h0⟩ | ⟨i', i, h', h0, he⟩
    · rw [Fs.isDir, Fs.isDir, h', h0]
    · have hs := congrArg (·.2.isSome) he
      simp only [Inode.shown] at hs
      rw [Fs.isDir_of h', Fs.isDir_of h0, Bool.eq_iff_iff]
      split_ifs at hs with h1 h2 h2
      · exact iff_of_true h1 h2
      · simp at hs
      · simp at hs
      · exact iff_of_false h1 h2
  simp only [Fs.space, Space.mk.injEq, hdir, true_and]
  constructor
  · funext j
    rcases hcases j with ⟨h', h0⟩ | ⟨i', i, h', h0, he⟩
    · rw [h', h0]
    · rw [h', h0, Option.map_some, Option.map_some, show i'.i_nlink = i.i_nlink from congrArg (·.1) he]
  · funext q
    rw [Fs.entry, Fs.entry, hdir]
    split_ifs with hq
    · obtain ⟨i, hi⟩ := Fs.isDir_some hq
      rcases hcases q.1 with ⟨h', h0⟩ | ⟨i', i, h', h0, he⟩
      · rw [hi] at h0
        simp at h0
      · have hdir' := (hdir q.1).trans hq
        rw [Fs.isDir_of h'] at hdir'
        rw [Fs.isDir_of h0] at hq
        have hs := congrArg (·.2) he
        simp only [Inode.shown, hdir', hq, if_true, Option.some.injEq] at hs
        rw [Fs.inode_of h', Fs.inode_of h0, hs]
    · rfl

/-- There was memory for a new inode, and its number was free. -/
theorem gas_new_inode_room (h : d.NumbersOk) {p inode : Inode} {mode : BitVec 16} {v : Vol}
    (he : gas_new_inode d.vol p mode = (none, some inode, v)) :
    d.vol.inodeInUse inode.i_ino = false ∧ v.tick = d.vol.tick + 1 ∧ ¬d.NoInode := by
  rcases gas_new_inode_cases h.geometry h.limit p mode with
    ⟨ino, hint, he', hlt, hfree, hmem⟩ | ⟨e', he', -⟩
  · rw [he'] at he
    obtain ⟨hi, hv⟩ := Prod.mk.inj (Prod.mk.inj he).2
    rw [← Option.some.inj hi, ← hv]
    refine ⟨hfree, rfl, ?_⟩
    rintro (hno | hfull)
    · rw [hmem] at hno
      simp at hno
    · have hbit : ino % 32768 < d.vol.sbi.s_bits_per_block := by
        rw [h.geometry.bits_per_block]
        exact Nat.mod_lt _ (by decide)
      rw [Vol.inoLimit] at hlt
      rw [Vol.inodeInUse, hfull (ino / 32768) (by omega) _ hbit] at hfree
      simp at hfree
  · simp [he'] at he

/-- Since `d`, the inode `k` is new and `Thin`, and nothing else was done.  `Thin` is about blocks,
the other fields are about numbers and names. -/
structure Hatched (d m : Fs Nat) (k : Nat) : Prop where
  absent : d.inodes k = none
  free : d.vol.inodeInUse k = false
  stays : d.Stays m
  hasTree : m.HasTree k
  thin : Thin d.vol (m.ctx k)
  shown : ∀ j, j ≠ k → (m.inodes j).map Inode.shown = (d.inodes j).map Inode.shown
  bits : ∀ j, j ≠ k → m.vol.inodeInUse j = d.vol.inodeInUse j

theorem Fs.hash_eq (d : Fs Nat) (v : Vol) (hino : i.i_ino = k) :
    Fs.hash { d with vol := v } i = d.set k ⟨v, i, 0⟩ := by
  rw [← hino]
  rfl

/-- The new inode in core. -/
theorem Fs.set_ctx (d : Fs Nat) (k : Nat) (v : Vol) (i : Inode) :
    (d.set k ⟨v, i, 0⟩).ctx k = ⟨v, i, 0⟩ := by
  rw [Fs.ctx, Fs.set_inode, Fs.set_vol]

/-- **A new inode**, and the turn that fills it. -/
theorem Fs.Books.hatch (h : d.Books) {p inode : Inode} {mode : BitVec 16} {v : Vol}
    (he : gas_new_inode d.vol p mode = (none, some inode, v)) (hnew : NewInode d mode inode v)
    (hino : i.i_ino = inode.i_ino) (h0 : ∀ n, i.blkaddr n = 0) (hm : i.i_mode = inode.i_mode)
    (hb : has_blocks mode = true) (f : Ctx → Ctx) (hf : ∀ c, TreeOk c → OwnStep c (f c))
    (hthin : TreeGeometry v → v.MapPadded → Thin v (f ⟨v, i, 0⟩)) :
    Hatched d (d.set inode.i_ino (f ⟨v, i, 0⟩)) inode.i_ino := by
  have hput := h.new_inode he hnew hino h0
  rw [Fs.hash_eq d v hino] at hput
  have hbi : has_blocks i.i_mode = true := by
    rw [hm, has_blocks_congr (gas_new_inode_mode h.numbers.geometry h.numbers.limit he)]
    exact hb
  have htree : (d.set inode.i_ino ⟨v, i, 0⟩).HasTree inode.i_ino := ⟨i, Function.update_self .., hbi⟩
  have hturn := hput.books.turn htree f hf
  have hown := hf _ (hput.books.treeOk htree)
  have hthin := hthin hput.books.sound.geometry hput.books.sound.padded
  rw [Fs.set_ctx] at hturn hown
  rw [Fs.set_set] at hturn
  refine ⟨hnew.absent, (gas_new_inode_room h.numbers he).1, hput.trans hturn, ?_, ?_, fun j hne => ?_,
    fun j hne => ?_⟩
  · exact ⟨_, Function.update_self .., by
      rw [hown.mode]
      exact hbi⟩
  · rw [Fs.ctx, Fs.set_inode, Fs.set_vol]
    exact (hthin.since fun b => (Vol.inUse_congr hnew.vol.sbi hnew.bam b).symm).congr rfl fun _ => rfl
  · exact congrArg _ (Function.update_of_ne hne _ _)
  · exact (hown.vol.inodeInUse j).trans ((hnew.bits j).trans (if_neg hne))

/-- **Put again, it leaves no trace.** -/
theorem Hatched.iput (h : Hatched d m k) (hl : (m.inode k).i_nlink = 0) : NoTrace d (m.iput k) := by
  obtain ⟨i, hk, hb⟩ := h.hasTree
  have hbooks := h.stays.books
  have hthin := h.thin
  rw [Fs.ctx, Fs.inode_of hk] at hthin
  rw [Fs.inode_of hk] at hl
  have hput : m.iput k = ⟨(gas_evict_inode ⟨m.vol, i, 0⟩).v, Function.update m.inodes k none⟩ := by
    unfold Fs.iput
    rw [Fs.ctx, Fs.inode_of hk, if_pos hl]
  have hkept := hbooks.iput ⟨i, hk⟩
  have hiam := (gas_evict_inode_iam hbooks.numbers.geometry (v := m.vol) hl).2
  rw [(hbooks.numbers.ino k i hk).1] at hiam
  rw [hput] at hkept ⊢
  refine ⟨Fs.space_congr fun j => ?_, hthin.evict (hbooks.sound.treeOk hk hb) hl hb, fun j => ?_⟩
  · rcases eq_or_ne j k with rfl | hne
    · rw [h.absent]
      exact congrArg _ (Function.update_self ..)
    · rw [← h.shown j hne]
      exact congrArg _ (Function.update_of_ne hne _ _)
  · rcases eq_or_ne j k with rfl | hne
    · rw [h.free, Bool.eq_false_iff]
      intro hu
      have hgone : ¬Fs.InCore ⟨(gas_evict_inode ⟨m.vol, i, 0⟩).v, Function.update m.inodes j none⟩ j := by
        rintro ⟨i', hi'⟩
        simp at hi'
      exact (hkept.astray j ⟨hu, hgone⟩).2 ⟨i, hk⟩
    · exact (hiam j hne).trans (h.bits j hne)

/-- A change of its links. -/
theorem Hatched.modify (h : Hatched d m k) {f : Inode → Inode} (hf : LinkStep f) :
    Hatched d (m.modify k f) k := by
  have hmod := h.stays.books.modify h.hasTree.inCore hf.keepsTree
  refine ⟨h.absent, h.free, h.stays.trans hmod, hmod.hasTree h.hasTree,
    h.thin.congr ?_ fun _ => rfl, fun j hne => ?_, h.bits⟩
  · rw [Fs.ctx_inode, Fs.modify_inode, (hf.keepsTree _).1]
    rfl
  · exact (congrArg _ (Function.update_of_ne hne _ _)).trans (h.shown j hne)

/-- Nor does a failed `gas_add_link` beside it leave any. -/
theorem Hatched.add_link_fails (h : Hatched d m k) (hok : DirOk (m.inode dir)) (hn : IsName name)
    (hdir : m.HasTree dir) (hne : dir ≠ k) {ino : Nat} {c : Ctx}
    (he : gas_add_link (m.ctx dir) name ino = (c, some e)) : Hatched d (m.set dir c) k := by
  have hadd := h.stays.books.turn hdir (fun c => (gas_add_link c name ino).1)
    fun c hc => (gas_add_link_fillStep hc name ino).toOwnStep
  have hmarks := @gas_add_link_fails _ e (h.stays.books.treeOk hdir) hok _ hn ino (by rw [he])
  have hvol := gas_add_link_blockStep (c := m.ctx dir) hok hn ino
  obtain ⟨hstep, ⟨e', -, hun⟩ | ⟨ho, -⟩⟩ := gas_add_link_spec (c := m.ctx dir) hok hn ino
  · rw [he] at hadd hmarks hvol hstep hun
    obtain ⟨i, hi, -⟩ := hdir
    refine ⟨h.absent, h.free, h.stays.trans hadd, hadd.hasTree h.hasTree, h.thin.congr ?_ hmarks,
      fun j hj => ?_, fun j hj => (hvol.inodeInUse j).trans (h.bits j hj)⟩
    · rw [Fs.ctx_inode, Fs.set_inode_of_ne m hne.symm]
      rfl
    · rw [← h.shown j hj]
      rcases eq_or_ne j dir with rfl | hjd
      · rw [Fs.ctx_inode, Fs.inode_of hi] at hstep hun
        obtain ⟨-, hmode, hl, hdead⟩ := hstep.fields
        have hshown : c.inode.shown = i.shown := by
          rw [Inode.shown, Inode.shown, hmode, hl, hdead, hun.slots]
        rw [hi, Option.map_some, ← hshown]
        exact congrArg _ (Function.update_self ..)
      · exact congrArg _ (Function.update_of_ne hjd _ _)
  · rw [he] at ho
    simp at ho

/-- A link taken on both sides. -/
theorem NoTrace.dec (h : NoTrace d d') (hk : d.InCore k) :
    NoTrace (d.modify k inode_dec_link_count) (d'.modify k inode_dec_link_count) := by
  obtain ⟨i, hi⟩ := hk
  obtain ⟨i', hi', hl⟩ : ∃ i', d'.inodes k = some i' ∧ i'.i_nlink.toNat = i.i_nlink.toNat := by
    have hn := congrFun (congrArg Space.nlink h.space) k
    rw [Fs.nlink_of hi] at hn
    exact Option.map_eq_some_iff.mp hn
  refine ⟨?_, h.blocks, h.numbers⟩
  have hdec : (inode_dec_link_count i').i_nlink = (inode_dec_link_count i).i_nlink := by
    rw [inode_dec_link_count, inode_dec_link_count, BitVec.eq_of_toNat_eq hl]
  rw [Fs.space_modify hi dec_linkStep, Fs.space_modify hi' dec_linkStep, h.space, hdec]

/-- **The exit of `gas_mkdir`** leaves no trace.  Its two links are taken one after the other, and
then it is evicted. -/
theorem Hatched.mkdir_fail (h : Hatched d m k) (hl : (m.inode k).i_nlink = 2) (hdir : d.InCore dir) :
    NoTrace (d.modify dir inode_dec_link_count) (GasFs.mkdir_fail m dir k) := by
  have hnone : ((m.modify k (inode_dec_link_count ∘ inode_dec_link_count)).inode k).i_nlink = 0 := by
    rw [Fs.modify_inode]
    simp only [Function.comp_apply, inode_dec_link_count, hl]
    decide
  unfold GasFs.mkdir_fail
  rw [Fs.modify_modify]
  exact ((h.modify (dec_linkStep.comp dec_linkStep)).iput hnone).dec hdir

end New

/-! ## 6. Failed calls

Each call with its exits.  An inode that stays in core is seen in the space by its link count, so
the other direction is short: where `add_nondir` is reached, a trace is left. -/

section Calls

variable {d d' : Fs Nat} {dir : Nat} {name : List UInt8} {e : Errno}

/-- **`gas_mkdir` that fails leaves no trace.** Each of its three exits with an error is one of
these. -/
theorem gas_mkdir_fails (h : d.Books) (hdirs : d.DirsOk) (hn : IsName name) (hdir : d.isDir dir = true)
    {mode : BitVec 16} (hmode : mode &&& S_IFMT = 0) (hr : gas_mkdir d dir name mode = (d', some e)) :
    NoTrace d d' := by
  obtain ⟨idir, hi⟩ := Fs.isDir_some hdir
  have hinc := h.modify ⟨idir, hi⟩ inc_linkStep.keepsTree
  have hback := Fs.modify_inc_dec hi
  have hdirs1 := (hdirs.keeps_modify hi inc_linkStep).dirs
  have hdir1 := (Fs.isDir_modify hi inc_linkStep dir).trans hdir
  unfold gas_mkdir at hr
  dsimp only at hr
  generalize d.modify dir inode_inc_link_count = d1 at *
  obtain ⟨i1, hi1⟩ := Fs.isDir_some hdir1
  rw [← hback]
  rcases hinc.books.numbers.new_inode (d1.inode dir) (S_IFDIR ||| mode) with
    ⟨inode, v, he, hnew⟩ | ⟨-, e', he⟩
  · rw [he] at hr
    dsimp only at hr
    have hino : (gas_set_inode (inode_inc_link_count inode) 0).i_ino = inode.i_ino :=
      (gas_set_inode_fields _ 0).1
    have hmode' : has_blocks (S_IFDIR ||| mode) = true := has_blocks_of_dir (S_ISDIR_mkdir hmode)
    have hne : dir ≠ inode.i_ino := by
      rintro rfl
      rw [hnew.absent] at hi1
      simp at hi1
    obtain ⟨op, hop⟩ := gas_set_inode_eq (inode_inc_link_count inode) 0
    generalize gas_set_inode (inode_inc_link_count inode) 0 = i0 at hr hino hop
    have h0 : ∀ n, i0.blkaddr n = 0 := fun n => by
      rw [hop]
      exact hnew.blkaddr n
    have hl0 : i0.i_nlink = 2 := by
      rw [hop]
      show inode.i_nlink + 1 = 2
      rw [hnew.nlink]
      rfl
    rw [Fs.hash_eq d1 v hino, Fs.set_ctx, Fs.set_inode_of_ne d1 hne] at hr
    generalize (d1.inode dir).i_ino = p at hr
    have hhatch := hinc.books.hatch he hnew hino h0 (by rw [hop]; rfl) hmode'
      (fun c => (gas_make_empty c p).1) (fun c hc => (gas_make_empty_fillStep hc p).toOwnStep)
      fun hg hp => gas_make_empty_thin (c := ⟨v, i0, 0⟩) hg hp h0 p
    obtain ⟨hs, hspec⟩ := gas_make_empty_spec (c := ⟨v, i0, 0⟩) (by rw [hop]; exact hnew.size)
      (fun n a _ _ => by rw [hop]; exact hnew.pages n a) p
    have hl := hs.fields.2.2.1.trans hl0
    generalize gas_make_empty ⟨v, i0, 0⟩ p = r at hr hhatch hl
    obtain ⟨c, _ | e'⟩ := r
    · dsimp only at hr hhatch hl
      rw [Fs.set_set] at hr
      have hd2 : (d1.set inode.i_ino c).inode dir = d1.inode dir := d1.set_inode_of_ne hne c
      have hk2 : (d1.set inode.i_ino c).inode inode.i_ino = c.inode := d1.set_inode inode.i_ino c
      have htree2 := hhatch.stays.hasTree (Fs.hasTree_of_isDir hdir1)
      generalize d1.set inode.i_ino c = d2 at hr hhatch hd2 hk2 htree2
      generalize (d2.inode inode.i_ino).i_ino = ino at hr
      have hfails : ∀ c' e, gas_add_link (d2.ctx dir) name ino = (c', some e) →
          Hatched d1 (d2.set dir c') inode.i_ino := fun c' e he =>
        hhatch.add_link_fails (by rw [hd2]; exact (hdirs1 dir hdir1).1) hn htree2 hne he
      generalize gas_add_link (d2.ctx dir) name ino = r at hr hfails
      obtain ⟨c', _ | e'⟩ := r
      · simp at hr
      · obtain ⟨rfl, -⟩ := Prod.mk.inj hr
        refine (hfails c' e' rfl).mkdir_fail ?_ ⟨i1, hi1⟩
        rw [Fs.set_inode_of_ne d2 hne.symm, hk2]
        exact hl
    · obtain ⟨rfl, -⟩ := Prod.mk.inj hr
      rw [Fs.set_set]
      exact hhatch.mkdir_fail (by rw [Fs.set_inode]; exact hl) ⟨i1, hi1⟩
  · rw [he] at hr
    obtain ⟨rfl, -⟩ := Prod.mk.inj hr
    exact (noTrace_tick d1 _).dec ⟨i1, hi1⟩

/-- A new inode that stays is a trace. -/
theorem not_noTrace {k : Nat} {i : Inode} (habs : d.inodes k = none) (hk : d'.inodes k = some i) :
    ¬NoTrace d d' := by
  intro h
  have hn := congrFun (congrArg Space.nlink h.space) k
  have hnone : d.space.nlink k = none := by
    rw [Fs.space]
    dsimp only
    rw [habs, Option.map_none]
  rw [Fs.nlink_of hk, hnone] at hn
  simp at hn

/-- **`gas_mknod` and `gas_create`** leave no trace if there is no inode; one that cannot be entered
stays.  `add_nondir` drops the reference, and an inode with a link is not evicted. -/
theorem new_nondir_fails (h : d.Books) (hdir : d.isDir dir = true) {mode : BitVec 16} {rdev : Nat}
    (hr : new_nondir d dir name mode rdev = (d', some e)) : NoTrace d d' ↔ d.NoInode := by
  unfold new_nondir at hr
  rcases h.numbers.new_inode (d.inode dir) mode with ⟨inode, v, he, hnew⟩ | ⟨hno, e', he⟩
  · rw [he] at hr
    dsimp only at hr
    have hino := (gas_set_inode_fields inode rdev).1
    have hset := hnew.set_inode rdev
    have hne := hnew.ne hdir
    rw [Fs.hash_eq d v hino, add_nondir_eq hne.symm (by
      rw [Fs.set_inode, hset.nlink]
      decide)] at hr
    obtain ⟨rfl, -⟩ := Prod.mk.inj hr
    refine iff_of_false (not_noTrace (i := gas_set_inode inode rdev) hnew.absent ?_)
      (gas_new_inode_room h.numbers he).2.2
    exact (Function.update_of_ne hne.symm _ _).trans (Function.update_self ..)
  · rw [he] at hr
    obtain ⟨rfl, -⟩ := Prod.mk.inj hr
    exact iff_of_true (noTrace_tick d _) hno

/-- **`gas_symlink`** leaves none if the body is too long, if there is no inode, or if the body cannot
be written. -/
theorem gas_symlink_fails (h : d.Books) (hdir : d.isDir dir = true) {symname : List UInt8}
    (hr : gas_symlink d dir name symname = (d', some e)) : NoTrace d d' ↔
      d.vol.sbi.s_blocksize < symname.length + 1 ∨ d.NoInode ∨
        d.vol.env.mem (d.vol.tick + 1) = false ∨ d.vol.BamFull := by
  unfold gas_symlink at hr
  by_cases hlen : d.vol.sbi.s_blocksize < symname.length + 1
  · rw [if_pos hlen] at hr
    obtain ⟨rfl, -⟩ := Prod.mk.inj hr
    exact iff_of_true (NoTrace.refl d) (Or.inl hlen)
  rw [if_neg hlen] at hr
  rcases h.numbers.new_inode (d.inode dir) (S_IFLNK ||| 0o777#16) with ⟨inode, v, he, hnew⟩ | ⟨hno, e', he⟩
  · rw [he] at hr
    dsimp only at hr
    have hino := (gas_set_inode_fields inode 0).1
    have hset := hnew.set_inode 0
    have hne := hnew.ne hdir
    obtain ⟨-, htick, hroom⟩ := gas_new_inode_room h.numbers he
    have hfull : v.BamFull ↔ d.vol.BamFull := by
      rw [Vol.BamFull, Vol.BamFull, hnew.bam, hnew.vol.sbi]
    have hhatch := h.hatch he hnew hino hset.blkaddr (gas_set_inode_mode inode 0) (by decide)
      (fun c => (page_symlink c symname).1) (fun c hc => page_symlink_ownStep hc symname)
      fun hg hp => (page_symlink_thin (c := ⟨v, gas_set_inode inode 0, 0⟩) hg hp hset.size hset.blkaddr
        symname).1
    have hput := h.new_inode he hnew hino hset.blkaddr
    have hbody := (page_symlink_thin (c := ⟨v, gas_set_inode inode 0, 0⟩) hput.books.sound.geometry
      hput.books.sound.padded hset.size hset.blkaddr symname).2
    obtain ⟨-, hs⟩ := page_symlink_step ⟨v, gas_set_inode inode 0, 0⟩ symname
    have hl := hs.fields.2.2.1.trans hset.nlink
    rw [Fs.hash_eq d v hino, Fs.set_ctx] at hr
    generalize page_symlink ⟨v, gas_set_inode inode 0, 0⟩ symname = r at hr hhatch hbody hl
    dsimp only at hbody
    rw [hnew.vol.env, htick, hfull] at hbody
    obtain ⟨c, _ | e'⟩ := r
    · dsimp only at hr hl
      obtain ⟨hmem, hfree⟩ := hbody.mp rfl
      rw [Fs.set_set, add_nondir_eq hne.symm (by
        rw [Fs.set_inode, hl]
        decide)] at hr
      obtain ⟨rfl, -⟩ := Prod.mk.inj hr
      refine iff_of_false (not_noTrace (i := c.inode) hnew.absent ?_) ?_
      · exact (Function.update_of_ne hne.symm _ _).trans (Function.update_self ..)
      · rintro (h1 | h2 | h3 | h4)
        exacts [hlen h1, hroom h2, by rw [hmem] at h3; simp at h3, hfree h4]
    · dsimp only at hr hhatch hl
      rw [Fs.set_set] at hr
      obtain ⟨rfl, -⟩ := Prod.mk.inj hr
      have hmodify := hhatch.modify dec_linkStep
      refine iff_of_true (hmodify.iput ?_) (Or.inr (Or.inr ?_))
      · rw [Fs.modify_inode, Fs.set_inode, inode_dec_link_count]
        dsimp only
        rw [hl]
        decide
      · by_contra hno
        rw [not_or, Bool.not_eq_false] at hno
        simpa using hbody.mpr hno
  · rw [he] at hr
    obtain ⟨rfl, -⟩ := Prod.mk.inj hr
    exact iff_of_true (noTrace_tick d _) (Or.inr (Or.inl hno))

/-- **`gas_link`** always leaves a link too many.  The link is counted before the entry is made, and
not taken back. -/
theorem gas_link_fails {x : Nat} (hdirs : d.DirsOk) (hn : IsName name) (hdir : d.isDir dir = true)
    (hx : d.InCore x) (hr : gas_link d x dir name = (d', some e)) : ¬NoTrace d d' := by
  obtain ⟨i, hi⟩ := hx
  have hf := inc_linkStep.comp (ctime_linkStep d.vol.now)
  have hspace := Fs.space_modify hi hf
  have hdirs1 := (hdirs.keeps_modify hi hf).dirs
  have hdir1 := (Fs.isDir_modify hi hf dir).trans hdir
  have hl : ((inode_inc_link_count ∘ fun i => { i with i_ctime := d.vol.now }) i).i_nlink =
      i.i_nlink + 1 := rfl
  rw [hl] at hspace
  unfold gas_link add_nondir at hr
  dsimp only at hr
  rw [Fs.modify_modify] at hr
  generalize d.modify x (inode_inc_link_count ∘ fun i => { i with i_ctime := d.vol.now }) = d1 at *
  obtain ⟨i1, hi1⟩ := Fs.isDir_some hdir1
  have hstep := (gas_add_link_spec (c := d1.ctx dir) (hdirs1 dir hdir1).1 hn (d1.inode x).i_ino).1
  rw [Fs.ctx_inode, Fs.inode_of hi1] at hstep
  generalize gas_add_link (d1.ctx dir) name (d1.inode x).i_ino = r at hr hstep
  obtain ⟨c, _ | e'⟩ := r
  · simp at hr
  · obtain ⟨rfl, -⟩ := Prod.mk.inj hr
    intro h
    have hn := congrFun (congrArg Space.nlink h.space) x
    rw [if_neg (by simp), Fs.space_set hi1 hstep, hspace, Fs.nlink_of hi] at hn
    dsimp only at hn
    rw [Function.update_self, Option.some.injEq] at hn
    have hne := BitVec.eq_of_toNat_eq hn
    simp at hne

/-- What the VFS holds when it calls: a directory that is not removed, a name, and the inode.  The
name may be in the directory or not.  It asks less than `NameOp.Allowed`: the name may be taken, or
be absent. -/
def NameOp.Tried (d : Fs Nat) : NameOp → Prop
  | .mknod dir name _ _ => IsName name ∧ d.isDir dir = true
  | .create dir name _ => IsName name ∧ d.isDir dir = true
  | .symlink dir name _ => IsName name ∧ d.isDir dir = true
  | .link inode dir name => IsName name ∧ d.isDir dir = true ∧ d.InCore inode
  | .mkdir dir name mode => IsName name ∧ d.isDir dir = true ∧ mode &&& S_IFMT = 0
  | .unlink dir name inode => IsName name ∧ d.isDir dir = true ∧ d.InCore inode
  | .rmdir dir name inode => IsName name ∧ d.isDir dir = true ∧ d.InCore inode
  | .iput _ => True
  | .caller _ => True

/-- When a failed call undoes what it did. -/
def NameOp.Undoes (d : Fs Nat) : NameOp → Prop
  | .mknod _ _ _ _ => d.NoInode
  | .create _ _ _ => d.NoInode
  | .symlink _ _ symname => d.vol.sbi.s_blocksize < symname.length + 1 ∨ d.NoInode ∨
      d.vol.env.mem (d.vol.tick + 1) = false ∨ d.vol.BamFull
  | .link _ _ _ => False
  | _ => True

/-- **A failed call leaves no trace** if it is a `mkdir`, an `unlink` or an `rmdir`, whatever
failed; `mknod`, `create` and `symlink` leave none if they failed before the name was entered, and
`link` always leaves one.  The conditions are on the state before the call. -/
theorem failed_leaves_no_trace_iff (h : d.Books) (hdirs : d.DirsOk) {op : NameOp} (ht : op.Tried d)
    (hcall : op.call d = (d', some e)) : NoTrace d d' ↔ op.Undoes d := by
  cases op with
  | mknod dir name mode rdev => exact new_nondir_fails h ht.2 hcall
  | create dir name mode => exact new_nondir_fails h ht.2 hcall
  | symlink dir name symname => exact gas_symlink_fails h ht.2 hcall
  | link inode dir name => exact iff_of_false (gas_link_fails hdirs ht.1 ht.2.1 ht.2.2 hcall) not_false
  | mkdir dir name mode => exact iff_of_true (gas_mkdir_fails h hdirs ht.1 ht.2.1 ht.2.2 hcall) trivial
  | unlink dir name inode =>
    exact iff_of_true (gas_unlink_fails h hdirs ht.1 ht.2.1 ht.2.2 hcall) trivial
  | rmdir dir name inode =>
    exact iff_of_true (gas_rmdir_fails h hdirs ht.1 ht.2.1 ht.2.2 hcall) trivial
  | iput inode => simp [NameOp.call] at hcall
  | caller env => simp [NameOp.call] at hcall

/-- A name in front of the first free record is found. -/
theorem gas_add_link_taken {c : Ctx} (hd : DirOk c.inode) (hn : IsName name) {t x : Nat}
    (hs : c.inode.slots[t]? = some (some (name, x))) (ht : t < hole c.inode.slots) (ino : Nat) :
    (gas_add_link c name ino).2 ≠ none := by
  rcases (gas_add_link_spec hd hn ino).2 with ⟨e, he, -⟩ | ⟨-, hp, -⟩
  · rw [he]
    exact Option.some_ne_none e
  · obtain ⟨e, he, hne⟩ := hp t ht
    obtain rfl := Option.some.inj (Option.some.inj (hs.symm.trans he))
    exact absurd rfl hne

/-- A second `.` is refused in the root of a new file system, and the root has a link too many. -/
theorem megabyte_link_fails : ∃ (d d' : Fs Nat) (e : Errno), d.Fresh ∧
    gas_link d GAS_ROOT_INO GAS_ROOT_INO dot = (d', some e) ∧ ¬NoTrace d d' := by
  obtain ⟨d, hfresh, -, hsbi, -⟩ := calm_megabyte
  have hbooks := hfresh.books (by
    rw [hsbi]
    decide)
  have hdirs := hfresh.consistent.named.dirs
  obtain ⟨size, n, v, i, -, hd, -, -, hmode, hdead, -, hok, hslots⟩ := hfresh.spec
  have hi : d.inodes GAS_ROOT_INO = some i := by
    rw [hd]
    exact Function.update_self GAS_ROOT_INO (some i) (fun _ => none)
  have hdir : d.isDir GAS_ROOT_INO = true := by
    rw [Fs.isDir_of hi, hmode, hdead]
    rfl
  have hno : (gas_link d GAS_ROOT_INO GAS_ROOT_INO dot).2 ≠ none := by
    have hf := inc_linkStep.comp (ctime_linkStep d.vol.now)
    have hdirs1 := (hdirs.keeps_modify hi hf).dirs
    have hdir1 := (Fs.isDir_modify hi hf GAS_ROOT_INO).trans hdir
    have hslots1 : ((d.modify GAS_ROOT_INO (inode_inc_link_count ∘
        fun i => { i with i_ctime := d.vol.now })).inode GAS_ROOT_INO).slots =
        [some (dot, GAS_ROOT_INO), some (dotdot, GAS_ROOT_INO)] := by
      rw [Fs.modify_inode, hf.slots, Fs.inode_of hi, hslots]
    unfold gas_link add_nondir
    dsimp only
    rw [Fs.modify_modify]
    generalize d.modify GAS_ROOT_INO (inode_inc_link_count ∘
      fun i => { i with i_ctime := d.vol.now }) = d1 at hdirs1 hdir1 hslots1
    have htaken := gas_add_link_taken (c := d1.ctx GAS_ROOT_INO) (hdirs1 _ hdir1).1 isName_dot (t := 0)
      (by rw [Fs.ctx_inode, hslots1]; rfl) (by rw [Fs.ctx_inode, hslots1]; decide)
      (d1.inode GAS_ROOT_INO).i_ino
    generalize gas_add_link (d1.ctx GAS_ROOT_INO) dot (d1.inode GAS_ROOT_INO).i_ino = r at htaken
    obtain ⟨c, _ | e⟩ := r
    · exact absurd rfl htaken
    · exact Option.some_ne_none e
  obtain ⟨e, he⟩ := Option.ne_none_iff_exists'.mp hno
  have hcall : (NameOp.link GAS_ROOT_INO GAS_ROOT_INO dot).call d =
      ((gas_link d GAS_ROOT_INO GAS_ROOT_INO dot).1, some e) := Prod.ext rfl he
  refine ⟨d, _, e, hfresh, hcall, ?_⟩
  have htried : (NameOp.link GAS_ROOT_INO GAS_ROOT_INO dot).Tried d := ⟨isName_dot, hdir, i, hi⟩
  exact (failed_leaves_no_trace_iff hbooks hdirs htried hcall).not.mpr not_false

end Calls

end GasFs
