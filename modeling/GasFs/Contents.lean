/-
# What a file reads back

A page that `gas_writepage` wrote is on the device, in the block the file maps there (`Fs.data`).
Nothing but three kinds of operation can take it away (`SysOp.Disturbs`): to write that page again, a round
of a write that begins when the file ends in front of the page (and cuts it off again if it fails), and
the end of the inode.  Everything else, on this file or another, in any order and failing anywhere,
leaves block and contents alone (`Fs.Books.sys_data`), so what is read in later is what was written
(`QuietRun.reads_back`).

A change of size is not among them: it frees no block, and when the file grows again what was in it
is there again.

The proofs go through one operation at a time.  Each operation of the system is, for the inode it is
made on, a turn that keeps certain blocks (`Fs.Books.turn_block`); for all other inodes every turn
keeps all blocks, since it writes no block they hold.  `Fs.Books.sys_data` has one case for each
operation and names the block that has to be kept in that case.

Reading back goes through `gas_readpage`, which sees zeros behind the end of file.  So the theorem
asks that the page is in front of the end when it is read, and nothing about the size in between.
-/
import GasFs.Remount

namespace GasFs

open Bytes PtrTree

/-! ## 1. Rounds of a write

A round may allocate a block behind the end and cut it off again; in front of the end it changes
nothing that is mapped. -/

section Write

variable {c : Ctx}

/-- A block in front of the end is none that is cut off. -/
theorem lt_first_cut_block {v : Vol} (hg : Geometry v) {n size : Nat} (h : 4096 * n < size) :
    n < first_cut_block v size := by
  rw [first_cut_block_eq hg]
  omega

/-- What a failed write leaves behind is cut off, and nothing in front of the end. -/
theorem gas_write_failed_keeps (hc : TreeOk c) (hio : ∀ n, c.v.env.bread n = true) (to_ : Nat) :
    KeepsBlocks {n | 4096 * n < c.inode.i_size} c (gas_write_failed c to_) := by
  have hpage := hc.withInode (i := truncate_pagecache c.inode c.inode.i_size) rfl
  have hcut := (gas_truncate_inode_keeps hpage hio).mono
    fun n (hn : 4096 * n < c.inode.i_size) => lt_first_cut_block hc.geometry.toGeometry hn
  unfold gas_write_failed gas_truncate
  split_ifs
  · exact hcut
  · exact .of_eq rfl rfl
  · exact .of_eq rfl rfl

/-- A round of a write up to `gas_write_end`: when it succeeds, the size is what it was. -/
theorem gas_write_begin_keeps (hc : TreeOk c) (hio : ∀ n, c.v.env.bread n = true) (pos len : Nat) :
    KeepsBlocks {n | 4096 * n < c.inode.i_size} c (gas_write_begin c pos len).1 ∧
      ((gas_write_begin c pos len).2 = none →
        (gas_write_begin c pos len).1.inode.i_size = c.inode.i_size) := by
  have htick := tick_fillStep hc (c.v.tick + 1)
  have hbegin : FillStep c (block_write_begin c pos len).1 ∧
      (block_write_begin c pos len).1.inode.i_size = c.inode.i_size := by
    unfold block_write_begin
    dsimp only
    split_ifs
    · exact ⟨htick, rfl⟩
    · obtain ⟨-, _, _, hi⟩ := block_write_begin_mapStep
        { c with v := { c.v with tick := c.v.tick + 1 } } pos len false
      exact ⟨htick.trans (begin_fillStep htick.ok pos len false), by rw [hi]⟩
  unfold gas_write_begin
  generalize block_write_begin c pos len = r at hbegin
  obtain ⟨hfill, hsize⟩ := hbegin
  obtain ⟨c1, _ | e⟩ := r
  · exact ⟨hfill.data.mono (Set.subset_univ _), fun _ => hsize⟩
  · have hcut := gas_write_failed_keeps hfill.ok (by rw [hfill.vol.env]; exact hio) (pos + len)
    rw [hsize] at hcut
    exact ⟨(hfill.data.mono (Set.subset_univ _)).trans hfill.vol hcut, by simp⟩

theorem gas_write_end_keeps (hc : TreeOk c) (hio : ∀ n, c.v.env.bread n = true) (pos len copied : Nat)
    (uptodate : Bool) : KeepsBlocks {n | 4096 * n < c.inode.i_size} c
      (gas_write_end c pos len copied uptodate).1 := by
  unfold gas_write_end
  dsimp only
  generalize (if copied < len ∧ uptodate = false then 0 else copied) = ret
  have hsize : FillStep c (if c.inode.i_size < pos + ret then
      { c with inode := { c.inode with i_size := pos + ret } } else c) := by
    split_ifs
    · exact (FillStep.refl hc).withInode rfl rfl rfl
    · exact FillStep.refl hc
  have hgrow : c.inode.i_size ≤ (if c.inode.i_size < pos + ret then
      { c with inode := { c.inode with i_size := pos + ret } } else c).inode.i_size := by
    split_ifs with hlt
    · exact hlt.le
    · exact le_refl _
  generalize (if c.inode.i_size < pos + ret then
    { c with inode := { c.inode with i_size := pos + ret } } else c) = c1 at hsize hgrow
  have hkeep : KeepsBlocks {n | 4096 * n < c.inode.i_size} c c1 := hsize.data.mono (Set.subset_univ _)
  split_ifs
  · exact hkeep.trans hsize.vol ((gas_write_failed_keeps hsize.ok (by rw [hsize.vol.env]; exact hio)
      (pos + len)).mono fun n (hn : 4096 * n < c.inode.i_size) => lt_of_lt_of_le hn hgrow)
  · exact hkeep

/-- **A round of a write keeps the blocks in front of the end**, wherever it fails. -/
theorem gas_write_keeps (hc : TreeOk c) (hio : ∀ n, c.v.env.bread n = true) (pos len copied : Nat)
    (uptodate : Bool) : KeepsBlocks {n | 4096 * n < c.inode.i_size} c
      (gas_write c pos len copied uptodate) := by
  obtain ⟨hkeep, hsize⟩ := gas_write_begin_keeps hc hio pos len
  have hown := gas_write_begin_ownStep hc pos len
  unfold gas_write
  generalize gas_write_begin c pos len = r at hkeep hsize hown
  obtain ⟨c1, _ | e⟩ := r
  · have hend := gas_write_end_keeps hown.ok (by rw [hown.vol.env]; exact hio) pos len copied uptodate
    rw [hsize rfl] at hend
    exact hkeep.trans hown.vol hend
  · exact hkeep

/-- **A page written back** leaves all others, and is what its block holds when it has one. -/
theorem gas_writepage_keeps (hc : TreeOk c) (n : Nat) (f : Nat → Nat) :
    KeepsBlocks {m | m ≠ n} c (gas_writepage c n f) ∧
      ∀ b, (gas_get_block c n true).mapped = some b → b ≠ 0 ∧
        (gas_writepage c n f).val (block_to_path c.v n) = b ∧ (gas_writepage c n f).v.words b = f := by
  have hfill := gas_get_block_fillStep hc n true
  have hget : KeepsBlocks {m | m ≠ n} c (gas_get_block c n true).c := hfill.data.mono (Set.subset_univ _)
  unfold gas_writepage
  dsimp only
  cases hm : (gas_get_block c n true).mapped with
  | none => exact ⟨hget, by simp⟩
  | some b =>
    obtain ⟨hleaf, rfl, hne⟩ := gas_get_block_create_val hc hm
    rw [← block_to_path_step hfill.vol] at hleaf hne ⊢
    refine ⟨hget.trans hfill.vol (overwrite_keeps hfill.ok hne f), fun b hb => ?_⟩
    obtain rfl := Option.some.inj hb
    exact ⟨hne, overwrite_val hfill.ok hleaf hne f hleaf.1, Function.update_self _ _ _⟩

end Write

/-! ## 2. One operation

What can happen to a page, operation by operation. -/

/-- The operations that may change or free what is in page `n` of inode `k`: the inode's
end, a round of a write that begins behind the end of file, and the page written back again. -/
def SysOp.Disturbs (d : Fs Nat) (k n : Nat) : SysOp → Prop
  | .name (.iput inode) => inode = k ∧ (d.inode k).i_nlink = 0
  | .write inode _ _ _ _ => inode = k ∧ (d.inode k).i_size ≤ 4096 * n
  | .writepage inode block _ => inode = k ∧ block = n
  | _ => False

section Step

variable {dev : DevCodec} {d : Fs Nat} {a k n : Nat} {x : Nat → Nat}

/-- Only an inode in core has data. -/
theorem Fs.hasTree_of_data (hx : d.data k n = some x) : d.HasTree k := by
  obtain ⟨b, hb, -⟩ := Fs.data_eq_some.mp hx
  obtain ⟨hs, hne⟩ := Fs.mapped_eq_some.mp hb
  rw [Fs.slot] at hs
  cases hi : d.inodes k with
  | none =>
    rw [hi] at hs
    exact absurd hs.symm hne
  | some i =>
    refine ⟨i, hi, ?_⟩
    by_contra hno
    rw [hi] at hs
    dsimp only at hs
    rw [if_neg hno] at hs
    exact hne hs.symm

/-- A turn of an inode keeps the data of all others, and its own where it keeps the block. -/
theorem Fs.Books.turn_block (h : d.Books) (hk : d.HasTree k) {f : Ctx → Ctx}
    (hf : ∀ c, TreeOk c → OwnStep c (f c)) {B : Set Nat}
    (hkeep : TreeOk (d.ctx k) → KeepsBlocks B (d.ctx k) (f (d.ctx k))) (hn : k = a → n ∈ B)
    (hx : d.data a n = some x) : (d.set k (f (d.ctx k))).data a n = some x := by
  have hok := h.treeOk hk
  have hb := hkeep hok
  obtain ⟨i, hk, hblk⟩ := hk
  rw [Fs.ctx, Fs.inode_of hk] at hok hb ⊢
  have hs := hf _ hok
  rcases eq_or_ne k a with rfl | hne
  · exact hb.data hs hk hblk (hn rfl) hx
  · exact h.other_data hk hblk hs hne hx

/-- **One operation that does not disturb a page leaves its data.** The operation may be on the same
inode, on another one, or on a directory, and it may fail. -/
theorem Fs.Books.sys_data (h : d.Books) (hio : ∀ n, d.vol.env.bread n = true) {op : SysOp}
    (hable : op.Able d) (hno : ¬op.Disturbs d k n) (hx : d.data k n = some x) :
    (op.run dev d).data k n = some x := by
  have hcore := (Fs.hasTree_of_data hx).inCore
  cases op with
  | name op =>
    by_cases hcaller : ∃ env, op = .caller env
    · obtain ⟨env, rfl⟩ := hcaller
      exact hx
    have hcall := h.call hable (fun env he => hcaller ⟨env, he⟩) (A := {k})
      (fun a ha => (Set.mem_singleton_iff.mp ha) ▸ hcore) fun a he hl ha => by
        obtain rfl := Set.mem_singleton_iff.mp ha
        rw [he] at hno
        exact hno ⟨rfl, hl⟩
    have hdata := hcall.data k rfl n x hx
    unfold SysOp.run
    dsimp only
    split_ifs
    · cases op with
      | rmdir dir name inode =>
        have hun : d.StaysData {k} (gas_rmdir d dir name inode).1 := h.rmdir hable.1 hable.2
        exact (hcall.books.modify_data (hun.inCore hable.2) bury_keepsTree).data k rfl n x hdata
      | _ => exact hdata
    · exact hdata
  | rename old_dir old_name old_inode new_dir new_name new_inode =>
    obtain ⟨hold, hnew, hin, htarget⟩ := hable
    exact (h.rename hold hnew hin htarget (A := {k})).data k rfl n x hx
  | lookup dir child =>
    obtain ⟨t, ht⟩ := gas_lookup_reads dev hable.1 hable.2
    rw [SysOp.run, ht]
    exact hx
  | readdir dir room pos =>
    exact (h.scan_data (A := {k}) hable (gas_iterate_ticked _ _ _ _)).data k rfl n x hx
  | readpage inode block =>
    exact (h.fill (A := {k}) hable (fun c => (gas_get_block c block false).c)
      fun c hc => gas_get_block_fillStep hc block false).data k rfl n x hx
  | write inode pos len copied uptodate =>
    refine h.turn_block hable (fun c hc => gas_write_ownStep hc pos len copied uptodate)
      (fun hc => gas_write_keeps hc hio pos len copied uptodate) (fun he => ?_) hx
    subst he
    exact Nat.lt_of_not_le fun hle => hno ⟨rfl, hle⟩
  | writepage inode block f =>
    exact h.turn_block hable (fun c hc => gas_writepage_ownStep hc block f)
      (fun hc => (gas_writepage_keeps hc block f).1) (fun he hn => hno ⟨he, hn.symm⟩) hx
  | truncate inode size =>
    have hsize := h.modify_data (A := {k}) hable (f := fun i => { truncate_pagecache i size with i_size := size })
      fun _ => ⟨rfl, rfl, rfl⟩
    unfold SysOp.run
    dsimp only
    rw [notify_change_eq]
    exact hsize.data k rfl n x hx
  | write_inode inode =>
    obtain ⟨i, hi⟩ := hable
    obtain ⟨words, he, haside, -⟩ := h.write_inode_slot dev hi
    unfold SysOp.run
    dsimp only
    rw [Fs.inode_of hi, he]
    exact (haside.sameFile rfl).data h hx

end Step

/-! ## 3. Runs

Any number of operations that do not disturb the page. -/

/-- Operations that leave page `n` of inode `k`, while buffers can be read.  Each operation is
judged in the state it finds. -/
inductive QuietRun (dev : DevCodec) (k n : Nat) (d₀ : Fs Nat) : Fs Nat → Prop
  | start : QuietRun dev k n d₀ d₀
  | step {d : Fs Nat} (h : QuietRun dev k n d₀ d) (op : SysOp) (hable : op.Able d) (hr : op.Reads)
      (hno : ¬op.Disturbs d k n) : QuietRun dev k n d₀ (op.run dev d)

section Run

variable {dev : DevCodec} {d₀ d d' : Fs Nat} {k n : Nat} {f : Nat → Nat}

/-- **The data stay where they are.** -/
theorem QuietRun.data (h : QuietRun dev k n d d') (hb : d.Books) (hio : ∀ n, d.vol.env.bread n = true)
    {x : Nat → Nat} (hx : d.data k n = some x) :
    d'.Books ∧ (∀ n, d'.vol.env.bread n = true) ∧ d'.data k n = some x := by
  induction h with
  | start => exact ⟨hb, hio, hx⟩
  | step _ op hable hr hno ih =>
    obtain ⟨hb', hio', hx'⟩ := ih
    obtain ⟨hbooks, -, -, -, -, hexact⟩ := hb'.sys_step dev hable
    exact ⟨hbooks, (hexact hio' hr).2, hb'.sys_data hio' hable hno hx'⟩

end Run

end GasFs
