/-
# Writing and resizing a file: `kern/gas_page.c`

A write to a regular file is one or more rounds of `gas_write_begin` and `gas_write_end`, each
within one page; a round that fails, or copies less than asked, ends in `gas_write_failed`, which
cuts the tree at the end of file.  `truncate(2)` goes through the `.setattr` of the file's operation
table.  The tables of `def.c` have none, so Linux stores the new size and drops cached pages, and
the tree keeps its blocks.

`NoTail` says that no logical block at or past the end of file is mapped.  Every write and read
keeps it, whatever fails (`Closed.write`, `Closed.read`).  `truncate(2)` keeps it exactly when the
blocks between the two ends are holes (`noTail_setattr_iff`), so it holds along a run of calls
exactly when every size change meets that condition (`noTail_run_iff`).

In the middle of a round the property fails: `gas_get_block` has mapped a block behind the end, and
the size is raised only when the data has been copied.  `Open` is the state in between.  It allows
one block behind the end, the one being written, and a round ends in `Closed` again in one of two
ways: the size is raised past that block, or the block is cut off.

Both ways need that the round asks for at least one byte.  The VFS does not call `gas_write_begin`
for an empty write, so `Call.write` carries this as a field, with the facts that a round lies in one
page and copies no more than was asked.
-/
import GasFs.Accounts

namespace GasFs

open PtrTree

/-! ## 1. The page operations

The functions of `gas_page.c` are short and leave the work to helpers of the kernel.  These are
translated as far as they touch the tree, the size and the cached pages. -/

/-- `truncate_pagecache`: what is cached behind the end is dropped.  The rest of the page of the end
is zeroed. -/
def truncate_pagecache (inode : Inode) (size : Nat) : Inode :=
  { inode with pages := fun p a =>
      if size ≤ p * PAGE_CACHE_SIZE + a then 0 else inode.pages p a }

/-- `gas_write_failed`: if the write would have gone behind the end, drop the pages there and cut
the tree at the present size. -/
def gas_write_failed (c : Ctx) (to_ : Nat) : Ctx :=
  if c.inode.i_size < to_ then
    gas_truncate { c with inode := truncate_pagecache c.inode c.inode.i_size }
  else c

/-- `block_write_begin`: get the page of `pos`, then prepare it. -/
def block_write_begin (c : Ctx) (pos len : Nat) : Ctx × Option Errno :=
  let ok := c.v.env.mem c.v.tick
  let c := { c with v := { c.v with tick := c.v.tick + 1 } }
  if ok = false then (c, some .ENOMEM) else __block_write_begin c pos len false

/-- `gas_write_begin`. -/
def gas_write_begin (c : Ctx) (pos len : Nat) : Ctx × Option Errno :=
  match block_write_begin c pos len with
  | (c, some e) => (gas_write_failed c (pos + len), some e)
  | (c, none) => (c, none)

/-- `gas_write_end`: `generic_write_end` counts a short copy into a page that is not up to date
as nothing, and raises the size to the end of what was copied. -/
def gas_write_end (c : Ctx) (pos len copied : Nat) (uptodate : Bool) : Ctx × Nat :=
  let ret := if copied < len ∧ uptodate = false then 0 else copied
  let c := if c.inode.i_size < pos + ret then
    { c with inode := { c.inode with i_size := pos + ret } } else c
  (if ret < len then gas_write_failed c (pos + len) else c, ret)

/-- One round of a write. -/
def gas_write (c : Ctx) (pos len copied : Nat) (uptodate : Bool) : Ctx :=
  match gas_write_begin c pos len with
  | (c, some _) => c
  | (c, none) => (gas_write_end c pos len copied uptodate).1

/-- The tables of `def.c` that fill in `.setattr`. -/
def InodeOps.setattr : InodeOps → Bool
  | .none => false
  | .gas_file_inode_ops => false
  | .gas_dir_inode_ops => false
  | .gas_symlink_inode_ops => false

/-- A size change by `truncate(2)`.  Without a `.setattr`, `notify_change` calls `simple_setattr`:
store the size, drop cached pages.  Neither of the two calls `gas_truncate`. -/
def notify_change (c : Ctx) (size : Nat) : Ctx :=
  if c.inode.i_op.setattr then c
  else { c with inode := { truncate_pagecache c.inode size with i_size := size } }

/-! ## 2. Nothing mapped behind the end

The property is about logical blocks below `s_nblocks`, which are those that `block_to_path` gives a
path for. -/

/-- No logical block at or past the end of file is mapped. -/
def NoTail (c : Ctx) : Prop :=
  ∀ b : Nat, first_cut_block c.v c.inode.i_size ≤ b → b < c.v.sbi.s_nblocks →
    c.val (block_to_path c.v b) = 0

/-- The same, but for one block: the one a write is about to fill. -/
def NoTailBut (c : Ctx) (blk : Nat) : Prop :=
  ∀ b : Nat, b ≠ blk → first_cut_block c.v c.inode.i_size ≤ b → b < c.v.sbi.s_nblocks →
    c.val (block_to_path c.v b) = 0

theorem first_cut_block_eq {v : Vol} (hg : Geometry v) (size : Nat) :
    first_cut_block v size = (size + 4095) / 4096 := by
  rw [first_cut_block, hg.blocksize, hg.blocksize_bits]
  rfl

section
variable {c c' : Ctx} {blk : Nat}

/-- The one block lies in front of the end. -/
theorem NoTailBut.noTail (h : NoTailBut c blk) (hg : Geometry c.v)
    (hb : blk * 4096 < c.inode.i_size) : NoTail c := by
  intro b hle hlt
  refine h b ?_ hle hlt
  rintro rfl
  rw [first_cut_block_eq hg] at hle
  omega

theorem NoTail.but (h : NoTail c) (blk : Nat) : NoTailBut c blk := fun b _ => h b

/-- A larger size asks for less, as fewer blocks are behind it. -/
theorem NoTailBut.resize (h : NoTailBut c blk) (hg : Geometry c.v) {i : Inode}
    (hb : i.blkaddr = c.inode.blkaddr) (hs : c.inode.i_size ≤ i.i_size) :
    NoTailBut { c with inode := i } blk := by
  intro b hne hle hlt
  have hval : ({ c with inode := i } : Ctx).val = c.val := by funext q; simp only [Ctx.val, hb]
  rw [hval]
  refine h b hne ?_ hlt
  rw [first_cut_block_eq hg] at hle ⊢
  have hle' : (i.i_size + 4095) / 4096 ≤ b := hle
  omega

/-- Steps that keep the values keep the property. -/
theorem NoTail.congr (h : NoTail c) (hv : BlockStep c.v c'.v)
    (hs : c'.inode.i_size = c.inode.i_size)
    (hval : ∀ q, shape.IsPath q → c'.val q = c.val q) (hg : TreeGeometry c.v) : NoTail c' := by
  intro b hle hlt
  have hpath : block_to_path c'.v b = block_to_path c.v b := by
    obtain ⟨_, _, _, _, he⟩ := hv; rw [he]; rfl
  have hcut : first_cut_block c'.v c'.inode.i_size = first_cut_block c.v c.inode.i_size := by
    rw [hs]; obtain ⟨_, _, _, _, he⟩ := hv; rw [he]; rfl
  rw [hcut] at hle
  rw [hv.sbi] at hlt
  have hne : block_to_path c.v b ≠ [] := fun e =>
    absurd ((block_to_path_eq_nil_iff hg.toGeometry).mp e) (by omega)
  rw [hpath, hval _ (block_to_path_isLeaf hg hne).1]
  exact h b hle hlt

/-! ## 3. Writes

From closed to open and back to closed. -/

/-- What all rounds of a write keep: the tree is sound, the file is a regular one with the same
operation table, and no block behind the end is mapped, but for the one being written. -/
structure Open (c : Ctx) (blk : Nat) : Prop where
  ok : TreeOk c
  reg : has_blocks c.inode.i_mode = true
  tail : NoTailBut c blk

/-- A file between two calls: its tree is sound, and nothing is mapped behind the end. -/
structure Closed (c : Ctx) : Prop where
  ok : TreeOk c
  reg : has_blocks c.inode.i_mode = true
  tail : NoTail c

theorem Closed.open (h : Closed c) (blk : Nat) : Open c blk := ⟨h.ok, h.reg, h.tail.but blk⟩

/-- The size has been raised past the open block. -/
theorem Open.close (h : Open c blk) (hb : blk * 4096 < c.inode.i_size) : Closed c :=
  ⟨h.ok, h.reg, h.tail.noTail h.ok.geometry.toGeometry hb⟩

/-- **`gas_truncate` closes a file** at its size.  It cuts the tree from the first block behind the
end on, so it does not matter what was mapped there. -/
theorem gas_truncate_closed (hc : TreeOk c) (hr : has_blocks c.inode.i_mode = true) :
    Closed (gas_truncate c) ∧ (gas_truncate c).inode.i_size = c.inode.i_size := by
  have ht : gas_truncate c = gas_truncate_inode c := if_pos hr
  rw [ht]
  obtain ⟨Z, h, -⟩ := gas_truncate_inode_is_cut hc
  refine ⟨⟨h.treeOk hc, by rw [h.inode.mode]; exact hr, fun b hle hlt => ?_⟩, h.inode.size⟩
  have hpath : block_to_path (gas_truncate_inode c).v b = block_to_path c.v b := by
    obtain ⟨_, _, _, _, he⟩ := h.vol; rw [he]; rfl
  have hcut : first_cut_block (gas_truncate_inode c).v (gas_truncate_inode c).inode.i_size =
      first_cut_block c.v c.inode.i_size := by
    rw [h.inode.size]; obtain ⟨_, _, _, _, he⟩ := h.vol; rw [he]; rfl
  rw [hcut] at hle
  rw [h.vol.sbi] at hlt
  rw [hpath]
  exact truncate_clears hc hle hlt

/-- `gas_write_failed` closes a file whose open block lies in front of the end it is given. -/
theorem Open.write_failed (h : Open c blk) {to_ : Nat} (hto : blk * 4096 < to_) :
    Closed (gas_write_failed c to_) := by
  unfold gas_write_failed
  by_cases hlt : c.inode.i_size < to_
  · rw [if_pos hlt]
    exact (gas_truncate_closed (h.ok.withInode (i := truncate_pagecache c.inode c.inode.i_size) rfl)
      h.reg).1
  · rw [if_neg hlt]
    exact h.close (by omega)

/-- Steps that keep mode and values keep a file closed. -/
theorem Closed.same (h : Closed c) (hs : Same c c') : Closed c' :=
  ⟨(hs.ownStep h.ok).ok, by rw [hs.inode]; exact h.reg,
    h.tail.congr hs.vol (by rw [hs.inode]) (fun _ hq => hs.val h.ok hq) h.ok.geometry⟩

/-- `gas_get_block` opens at most the block it is asked for. -/
theorem Closed.get_block (h : Closed c) (blk : Nat) (create : Bool) :
    Open (gas_get_block c blk create).c blk := by
  cases create with
  | false => exact (h.same (gas_get_block_lookup c blk).1.same).open blk
  | true =>
    obtain ⟨hcr, hnil⟩ := gas_get_block_create h.ok blk
    cases hcr with
    | failed hs _ _ => exact (h.same hs).open blk
    | found hs _ _ _ => exact (h.same hs).open blk
    | grafted m nb hg _ he =>
      have ho : block_to_path c.v blk ≠ [] := fun e => hnil e he
      have hlt : blk < c.v.sbi.s_nblocks := by
        by_contra hge
        exact ho ((block_to_path_eq_nil_iff h.ok.geometry.toGeometry).mpr (by omega))
      generalize hr : gas_get_block c blk true = r at hg he
      obtain ⟨blkaddr, ctime, hi⟩ := hg.inode
      refine ⟨hg.treeOk h.ok, by rw [hi]; exact h.reg, fun b hne hle hb => ?_⟩
      have hpath : block_to_path r.c.v b = block_to_path c.v b := by
        obtain ⟨_, _, _, _, he⟩ := hg.vol; rw [he]; rfl
      have hcut : first_cut_block r.c.v r.c.inode.i_size = first_cut_block c.v c.inode.i_size := by
        rw [hi]; obtain ⟨_, _, _, _, he⟩ := hg.vol; rw [he]; rfl
      rw [hcut] at hle
      rw [hg.vol.sbi] at hb
      rw [hpath]
      have hbne : block_to_path c.v b ≠ [] := fun e =>
        absurd ((block_to_path_eq_nil_iff h.ok.geometry.toGeometry).mp e) (by omega)
      have hleaf := block_to_path_isLeaf h.ok.geometry hbne
      rcases hg.val_cases hleaf.1 with ⟨hv, -⟩ | ⟨hpre, -, -, -⟩
      · rw [hv]
        exact h.tail b hle hb
      · -- the only data slot on the path is the one asked for
        have hpeq := isLeaf_prefix_eq (block_to_path_isLeaf h.ok.geometry ho) hleaf hpre
        exact absurd (block_to_path_inj h.ok.geometry.toGeometry hb hlt hpeq) hne

theorem Open.ticked (h : Open c blk) (ht : Ticked c c') : Open c' blk := by
  obtain ⟨t, rfl⟩ := ht
  exact ⟨Ticked.treeOk ⟨t, rfl⟩ h.ok, h.reg, h.tail⟩

/-- `block_write_begin` opens the block of its page. -/
theorem Closed.block_write_begin (h : Closed c) (pos len : Nat) :
    Open (block_write_begin c pos len).1 (pos / PAGE_CACHE_SIZE) := by
  have h1 : Closed { c with v := { c.v with tick := c.v.tick + 1 } } :=
    h.same (Ticked.same ⟨_, rfl⟩)
  have h2 := h1.get_block (pos / PAGE_CACHE_SIZE) true
  unfold GasFs.block_write_begin __block_write_begin sb_bread
  dsimp only
  split_ifs
  · exact h1.open _
  · exact h2
  · exact h2
  · cases (gas_get_block { c with v := { c.v with tick := c.v.tick + 1 } }
        (pos / PAGE_CACHE_SIZE) true).c.v.env.bread _ <;> exact h2.ticked ⟨_, rfl⟩

/-- **A round of a write keeps the file closed**, whether it succeeds, is cut short or fails.  A
round that fails before a block was mapped changes nothing behind the end; each later failure goes
through `gas_write_failed`, with an end that the open block lies in front of. -/
theorem Closed.write (h : Closed c) {pos len copied : Nat} (hlen : 0 < len)
    (hcop : copied ≤ len) (uptodate : Bool) : Closed (gas_write c pos len copied uptodate) := by
  have hopen := h.block_write_begin pos len
  have hpos : pos / PAGE_CACHE_SIZE * 4096 ≤ pos := Nat.div_mul_le_self pos 4096
  unfold gas_write gas_write_begin
  generalize GasFs.block_write_begin c pos len = r at hopen
  obtain ⟨c1, _ | e⟩ := r
  · -- the size is raised, then the rest is cut off
    dsimp only at hopen ⊢
    unfold gas_write_end
    generalize hret : (if copied < len ∧ uptodate = false then 0 else copied) = ret
    obtain ⟨c2, hc2, hsize⟩ : ∃ c2, Open c2 (pos / PAGE_CACHE_SIZE) ∧
        c2 = (if c1.inode.i_size < pos + ret then
          { c1 with inode := { c1.inode with i_size := pos + ret } } else c1) := by
      by_cases hlt : c1.inode.i_size < pos + ret
      · rw [if_pos hlt]
        refine ⟨{ c1 with inode := { c1.inode with i_size := pos + ret } },
          ⟨hopen.ok.withInode rfl, hopen.reg, ?_⟩, rfl⟩
        exact hopen.tail.resize hopen.ok.geometry.toGeometry rfl (Nat.le_of_lt hlt)
      · rw [if_neg hlt]
        exact ⟨_, hopen, rfl⟩
    dsimp only
    rw [← hsize]
    by_cases hshort : ret < len
    · rw [if_pos hshort]
      exact hc2.write_failed (by omega)
    · rw [if_neg hshort]
      refine hc2.close ?_
      have hge : pos + ret ≤ c2.inode.i_size := by
        rw [hsize]
        by_cases hlt : c1.inode.i_size < pos + ret
        · rw [if_pos hlt]
        · rw [if_neg hlt]; omega
      omega
  · exact hopen.write_failed (by omega)

/-- A read changes nothing. -/
theorem Closed.read (h : Closed c) (blk : Nat) : Closed (gas_get_block c blk false).c :=
  h.same (gas_get_block_lookup c blk).1.same

/-! ## 4. Size changes

A size change does not look at the tree at all.  So the tree has blocks behind the new end exactly
if it had some behind it before the call. -/

/-- The blocks between a new end of file and the present one are holes. -/
def HolesFrom (c : Ctx) (size : Nat) : Prop :=
  ∀ b : Nat, first_cut_block c.v size ≤ b → b < first_cut_block c.v c.inode.i_size →
    b < c.v.sbi.s_nblocks → c.val (block_to_path c.v b) = 0

theorem notify_change_eq (c : Ctx) (size : Nat) :
    notify_change c size = { c with inode := { truncate_pagecache c.inode size with i_size := size } } := by
  unfold notify_change
  cases c.inode.i_op <;> rfl

/-- **`truncate(2)` keeps a file closed exactly when the blocks cut off are holes.** A larger size
cuts off nothing, so it always does. -/
theorem noTail_setattr_iff (h : NoTail c) (size : Nat) :
    NoTail (notify_change c size) ↔ HolesFrom c size := by
  rw [notify_change_eq]
  constructor
  · intro h' b hle _ hlt
    exact h' b hle hlt
  · intro hh b hle hlt
    by_cases hb : b < first_cut_block c.v c.inode.i_size
    · exact hh b hle hb hlt
    · exact h b (by omega) hlt

theorem Closed.setattr (h : Closed c) {size : Nat} (hh : HolesFrom c size) :
    Closed (notify_change c size) := by
  have ht := (noTail_setattr_iff h.tail size).mpr hh
  rw [notify_change_eq] at ht ⊢
  exact ⟨h.ok.withInode rfl, h.reg, ht⟩

/-! ## 5. Runs

The condition of a call is about the tree that it finds, so the condition of a run is a recursion
over its calls. -/

/-- A call on an open regular file. -/
inductive Call where
  /-- a round of a write: it lies in one page, and copies at most what was asked -/
  | write (pos len copied : Nat) (uptodate : Bool) (pos_len : 0 < len)
      (fits : pos % PAGE_CACHE_SIZE + len ≤ PAGE_CACHE_SIZE) (le : copied ≤ len)
  /-- `truncate(2)` -/
  | truncate (size : Nat)
  /-- a read of a block -/
  | read (blk : Nat)

def Call.run (c : Ctx) : Call → Ctx
  | .write pos len copied uptodate _ _ _ => gas_write c pos len copied uptodate
  | .truncate size => notify_change c size
  | .read blk => (gas_get_block c blk false).c

/-- The condition on a call: a size change cuts off holes only. -/
def Call.Meets (c : Ctx) : Call → Prop
  | .write .. => True
  | .truncate size => HolesFrom c size
  | .read _ => True

def run_calls (c : Ctx) (calls : List Call) : Ctx := calls.foldl Call.run c

/-- All calls of a run meet the condition, each in the state it finds. -/
def MeetAll (c : Ctx) : List Call → Prop
  | [] => True
  | call :: calls => call.Meets c ∧ MeetAll (call.run c) calls

/-- One call. -/
theorem Closed.call (h : Closed c) {call : Call} (hm : call.Meets c) : Closed (call.run c) := by
  cases call with
  | write pos len copied uptodate pos_len fits le => exact h.write pos_len le uptodate
  | truncate size => exact h.setattr hm
  | read blk => exact h.read blk

/-- A call that does not meet the condition leaves a block mapped behind the end, and the others do
not. -/
theorem Closed.call_iff (h : Closed c) (call : Call) : NoTail (call.run c) ↔ call.Meets c := by
  constructor
  · intro ht
    cases call with
    | write => trivial
    | truncate size => exact (noTail_setattr_iff h.tail size).mp ht
    | read => trivial
  · exact fun hm => (h.call hm).tail

/-- **Nothing stays allocated past the end of file, at any point between calls, if and only if every
`truncate(2)` of the run cuts off holes only.** The induction is on the calls, with the state
general; the first call that does not meet the condition is a point where the property fails. -/
theorem noTail_run_iff : ∀ (calls : List Call) {c : Ctx}, Closed c →
    ((∀ n, NoTail (run_calls c (calls.take n))) ↔ MeetAll c calls)
  | [], c, h => by
    simp only [List.take_nil, MeetAll, iff_true]
    exact fun _ => h.tail
  | call :: calls, c, h => by
    constructor
    · intro ht
      have hm : call.Meets c := (h.call_iff call).mp (ht 1)
      refine ⟨hm, (noTail_run_iff calls (h.call hm)).mp fun n => ?_⟩
      exact ht (n + 1)
    · rintro ⟨hm, hrest⟩ n
      cases n with
      | zero => exact h.tail
      | succ n => exact (noTail_run_iff calls (h.call hm)).mpr hrest n

end

/-! ## 6. A file of one block

The condition is not vacuous: a run that meets it, and one call that does not. -/

/-- A regular file of one block, block 5 of the small volume. -/
def one_block : Ctx where
  v := small_vol true 0
  inode := { small_inode 2 S_IFREG 1 (fun i => if i = 0 then 5 else 0) with
    i_size := 4096, i_op := .gas_file_inode_ops }
  nr := 0

theorem one_block_val {q : List Nat} (hq : shape.IsPath q) :
    one_block.val q = if q = [0] then 5 else 0 := by
  match q, hq with
  | [], hq => exact hq.elim
  | [i], _ => simp [Ctx.val, val, one_block, small_inode]
  | 0 :: j :: r, hq => exact absurd (isPath_cons.mp hq).2.1 (by simp)
  | (i + 1) :: j :: r, _ => simp [Ctx.val, val, one_block, small_inode]

theorem one_block_closed : Closed one_block where
  ok :=
    { geometry := small_geometry true 0
      padded := fun _ _ _ => rfl
      one := fun q q' hq hq' hne he => by
        have hq0 := one_block_val hq
        have hq0' := one_block_val hq'
        simp only [Ctx.val] at hq0 hq0'
        rw [hq0] at hne he
        rw [hq0'] at he
        split_ifs at hne he with h1 h2
        · rw [h1, h2]
        · exact absurd rfl hne
      zone := fun q hq hne => by
        rw [one_block_val hq] at hne ⊢
        split_ifs at hne ⊢
        · exact ⟨by show 4 ≤ 5; omega, by show 5 < 6; omega⟩
        · exact absurd rfl hne
      used := fun _ _ _ => rfl }
  reg := by decide
  tail := by
    intro b hle hlt
    have h1 : 1 ≤ b := hle
    have h6 : b < 6 := hlt
    have hpath : block_to_path one_block.v b = [b] := by
      obtain rfl | rfl | rfl | rfl | rfl : b = 1 ∨ b = 2 ∨ b = 3 ∨ b = 4 ∨ b = 5 := by omega
      all_goals rfl
    rw [hpath, one_block_val (isPath_cons.mpr ⟨by omega, by simp, by simp⟩), if_neg]
    simp only [List.cons.injEq, and_true]
    omega

/-- Two size changes that cut nothing off, a read, and a short write behind the end. -/
theorem one_block_run : NoTail (run_calls one_block [.truncate 8192, .read 0, .truncate 4097,
    .write 4097 10 5 true (by decide) (by decide) (by decide)]) := by
  have hmeet : MeetAll one_block [.truncate 8192, .read 0, .truncate 4097,
      .write 4097 10 5 true (by decide) (by decide) (by decide)] := by
    refine ⟨fun b hle hb _ => ?_, trivial, fun b hle hb _ => ?_, trivial, trivial⟩
    · have h2 : 2 ≤ b := hle
      have h1 : b < 1 := hb
      omega
    · have h2 : 2 ≤ b := hle
      have h1 : b < 2 := hb
      omega
  have hrun := (noTail_run_iff _ one_block_closed).mpr hmeet 4
  rwa [List.take_of_length_le (by simp)] at hrun

/-- **`truncate(2)` to nothing leaves the block mapped.** The file has one block and becomes
empty. -/
theorem truncate_leaves_tail :
    Closed one_block ∧ ¬NoTail (run_calls one_block [.truncate 0]) := by
  refine ⟨one_block_closed, fun h => ?_⟩
  have h0 : one_block.val [0] = 0 := h 0 (Nat.zero_le _) (by show 0 < 6; omega)
  exact absurd h0 (by decide)

end GasFs
