/-
# The mounted file system as a whole

`SysOp` is what is done to a mounted file system: the calls of `gas_namei.c` and the renaming, lookups and
listings, writes, write-backs and size changes of files, and the write-back of inodes.  A run
(`SysRun`) is any sequence of them, each of which may fail at any request, in any order.

Whatever happens, the books are kept (`SysRun.books`): a block has at most one holder, one slot of one
inode, and it is marked.  So nothing is written over, and what is lost stays lost.  Where buffers can be
read nothing else is lost than what `mkfs.gas` lost, four blocks (`SysRun.lost_eq`), so free blocks, held
blocks and these four add up to the data zone, and free numbers and inodes in core to the inode list
(`SysRun.statfs_adds_up`).

The results do not depend on what the operations return.  A run may contain failed calls, names made
twice, directories removed with their entries: the namespace may be wrong and the books are right
all the same, since they are about pointers and marks only.
-/
import GasFs.Dir.Readdir
import GasFs.Namei.Books
import GasFs.Statfs

namespace GasFs

open PtrTree

/-! ## 1. Operations

`SysOp` has a constructor for each way into the file system.  `Able` is the little that is asked of
the caller: the inodes it works on are in core, with what a lookup finds, and directories are
directories. -/

/-- `gas_writepage`: the block of the page is found or taken, and written.  The page is one that was
changed through a mapping or a write, so the block may not be there yet. -/
def gas_writepage (c : Ctx) (block : Nat) (f : Nat → Nat) : Ctx :=
  let r := gas_get_block c block true
  match r.mapped with
  | some b => { r.c with v := r.c.v.overwrite b f }
  | none => r.c

/-- What is done to a mounted file system.  The kernel's part is in the arguments: how much of a
write was copied, and which page it writes back. -/
inductive SysOp where
  | name (op : NameOp)
  | rename (old_dir : Nat) (old_name : List UInt8) (old_inode new_dir : Nat) (new_name : List UInt8)
      (new_inode : Option Nat)
  | lookup (dir : Nat) (name : List UInt8)
  /-- one `gas_readdir`, with room for `room` entries -/
  | readdir (dir room pos : Nat)
  /-- a page is read in -/
  | readpage (inode block : Nat)
  /-- a round of a write -/
  | write (inode pos len copied : Nat) (uptodate : Bool)
  /-- a page is written back -/
  | writepage (inode block : Nat) (f : Nat → Nat)
  /-- `truncate(2)` -/
  | truncate (inode size : Nat)
  /-- an inode is written back -/
  | write_inode (inode : Nat)

/-- The operation, whatever it returns.  Errors are dropped here: what an operation returns does not
matter for the books. -/
def SysOp.run (dev : DevCodec) (d : Fs Nat) : SysOp → Fs Nat
  | .name op => if (op.call d).2 = none then op.mark (op.call d).1 else (op.call d).1
  | .rename old_dir old_name old_inode new_dir new_name new_inode =>
    (gas_rename d old_dir old_name old_inode new_dir new_name new_inode).1
  | .lookup dir child => (gas_lookup dev d dir child).2
  | .readdir dir room pos => d.set dir (gas_iterate filldir (d.ctx dir) ⟨room, [], false⟩ pos).c
  | .readpage inode block => d.set inode (gas_get_block (d.ctx inode) block false).c
  | .write inode pos len copied uptodate =>
    d.set inode (gas_write (d.ctx inode) pos len copied uptodate)
  | .writepage inode block f => d.set inode (gas_writepage (d.ctx inode) block f)
  | .truncate inode size => d.set inode (notify_change (d.ctx inode) size)
  | .write_inode inode => { d with vol := (gas_update_inode dev d.vol (d.inode inode)).2 }

/-- The references the VFS holds: directories are in core, and so is what is operated on.  It asks
nothing of names: a call may be one that the VFS would not make. -/
def NameOp.Able (d : Fs Nat) : NameOp → Prop
  | .mknod dir _ _ _ => d.HasTree dir
  | .create dir _ _ => d.HasTree dir
  | .symlink dir _ _ => d.HasTree dir
  | .link inode dir _ => d.HasTree dir ∧ d.InCore inode
  | .mkdir dir _ mode => d.HasTree dir ∧ mode &&& S_IFMT = 0
  | .unlink dir _ inode => d.HasTree dir ∧ d.InCore inode
  | .rmdir dir _ inode => d.HasTree dir ∧ d.InCore inode
  | .iput inode => d.InCore inode
  | .caller _ => True

/-- The same; what a lookup finds is in core. -/
def SysOp.Able (d : Fs Nat) : SysOp → Prop
  | .name op => op.Able d
  | .rename old_dir _ old_inode new_dir _ new_inode =>
    d.HasTree old_dir ∧ d.HasTree new_dir ∧ d.InCore old_inode ∧
      ∀ k, new_inode = some k → d.InCore k
  | .lookup dir child => d.InCore dir ∧ ((gas_inode_by_name (d.ctx dir) child).1 = 0 ∨
      d.InCore (gas_inode_by_name (d.ctx dir) child).1)
  | .readdir dir _ _ => d.InCore dir
  | .readpage inode _ => d.HasTree inode
  | .write inode _ _ _ _ => d.HasTree inode
  | .writepage inode _ _ => d.HasTree inode
  | .truncate inode _ => d.InCore inode
  | .write_inode inode => d.InCore inode

/-- Buffers do not begin to fail. -/
def SysOp.Reads : SysOp → Prop
  | .name (.caller env) => ∀ n, env.bread n = true
  | _ => True

/-! ## 2. One operation

Each operation is a call of `GasFs.Namei.Books`, a turn of one inode, or a write to the inode list.
A lookup and a listing ask for pages and change nothing else. -/

/-- A listing reads. -/
theorem iterate_loop_ticked {σ : Type} (actor : Actor σ) : ∀ (count pidx off : Nat) (c : Ctx) (s : σ)
    (pos : Nat), Ticked c (iterate_loop actor count pidx off c s pos).c
  | 0, _, _, c, _, _ => Ticked.refl c
  | count + 1, pidx, off, c, s, pos => by
    have htick : Ticked c { c with v := { c.v with tick := c.v.tick + 1 } } := ⟨_, rfl⟩
    simp only [iterate_loop, gas_dir_get_page]
    cases c.v.env.pgread c.v.tick with
    | false => exact htick
    | true =>
      simp only [if_true]
      split
      · exact htick
      · exact htick.trans (iterate_loop_ticked actor count (pidx + 1) 0 _ _ _)

/-- A whole listing. -/
theorem gas_iterate_ticked {σ : Type} (actor : Actor σ) (c : Ctx) (s : σ) (pos : Nat) :
    Ticked c (gas_iterate actor c s pos).c := iterate_loop_ticked actor _ _ _ c s pos

/-- The block that a call with `create` maps is the one in the slot. -/
theorem gas_get_block_create_val {c : Ctx} (hc : TreeOk c) {block b : Nat}
    (hm : (gas_get_block c block true).mapped = some b) :
    IsLeaf (block_to_path c.v block) ∧
      (gas_get_block c block true).c.val (block_to_path c.v block) = b ∧ b ≠ 0 := by
  obtain ⟨hcreated, hnil⟩ := gas_get_block_create hc block
  have hpath : block_to_path c.v block ≠ [] := fun hpath => by
    cases hcreated with
    | failed hs hm' he =>
      rw [hm'] at hm
      simp at hm
    | found hs hne hm' he => exact hnil hpath he
    | grafted m nb hg hm' he => exact hnil hpath he
  have hleaf := block_to_path_isLeaf hc.geometry hpath
  refine ⟨hleaf, ?_⟩
  cases hcreated with
  | failed hs hm' he =>
    rw [hm'] at hm
    simp at hm
  | found hs hne hm' he =>
    obtain rfl := Option.some.inj (hm'.symm.trans hm)
    exact ⟨hs.val hc hleaf.1, hne⟩
  | grafted m nb hg hm' he =>
    obtain rfl := Option.some.inj (hm'.symm.trans hm)
    refine ⟨rfl, ?_⟩
    have hl := hg.length
    have hle := hg.le
    have hmem : nb.getD (nb.length - 1) 0 ∈ nb := by
      rw [List.getD_eq_getElem _ _ (by omega)]
      exact List.getElem_mem _
    rw [hg.val_path hleaf.1]
    have hzone := (hg.fresh _ hmem).1.1
    have hpos := hc.geometry.data_pos
    omega

/-- **Write-back of a page** is a turn of the file. -/
theorem gas_writepage_ownStep {c : Ctx} (hc : TreeOk c) (block : Nat) (f : Nat → Nat) :
    OwnStep c (gas_writepage c block f) := by
  have hget := gas_get_block_ownStep hc block true
  unfold gas_writepage
  dsimp only
  cases hm : (gas_get_block c block true).mapped with
  | none => exact hget
  | some b =>
    obtain ⟨hleaf, rfl, hne⟩ := gas_get_block_create_val hc hm
    exact hget.trans ((overwrite_cut hget.ok hleaf hne f).ownStep hget.ok)

section Step

variable {d : Fs Nat} {k : Nat}

/-- Another caller. -/
theorem Fs.Books.caller (h : d.Books) (env : Env) :
    Fs.Books { d with vol := { d.vol with env := env } } := by
  have hg : TreeGeometry { d.vol with env := env } :=
    ⟨{ h.sound.geometry.toGeometry with }, h.sound.geometry.nblocks_le⟩
  have hs := @Fs.Sound.congr Nat d { d with vol := { d.vol with env := env } } h.sound hg
    h.sound.padded (fun _ => Iff.rfl) (fun _ => rfl) fun _ _ _ => rfl
  exact ⟨hs.1, h.numbered.congr rfl (fun _ _ _ hu => hu) h.numbered.ino,
    { h.numbers.geometry with }, h.numbers.limit, h.numbers.zero, h.numbers.ino⟩

/-- Write-back of an inode goes to the inode list, and moves no slot. -/
theorem Fs.Books.write_inode_slot (h : d.Books) (dev : DevCodec) {i : Inode} (hi : d.inodes k = some i) :
    ∃ words, (gas_update_inode dev d.vol i).2 = { d.vol with tick := d.vol.tick + 1, words := words } ∧
      d.Aside { d.vol with tick := d.vol.tick + 1, words := words } ∧ ∀ j q, shape.IsPath q →
        Fs.slot ⟨{ d.vol with tick := d.vol.tick + 1, words := words }, d.inodes⟩ j q = d.slot j q := by
  have hlist := h.numbered.list _ (h.numbered.ino k i hi).2.1
  obtain ⟨words, he, hw⟩ := TableOp.run_frame dev d.vol (.gas_update_inode i)
  have ha : d.Aside { d.vol with tick := d.vol.tick + 1, words := words } := by
    refine h.sound.aside_of_zone fun b hb => funext fun w => hw b w fun hin => ?_
    exact absurd (hb.1.trans_eq hin.1) (not_le_of_gt hlist)
  exact ⟨words, he, ha, fun j q hq => ha.slot j hq⟩

/-- So the books are kept. -/
theorem Fs.Books.write_inode (h : d.Books) (dev : DevCodec) (hk : d.InCore k) :
    d.Kept { d with vol := (gas_update_inode dev d.vol (d.inode k)).2 } := by
  obtain ⟨i, hi⟩ := hk
  obtain ⟨words, he, -, hslot⟩ := h.write_inode_slot dev hi
  rw [Fs.inode_of hi, he]
  exact h.same ⟨rfl, rfl, rfl⟩ (h.numbered.congr rfl (fun _ _ _ hu => hu) h.numbered.ino)
    ⟨{ h.numbers.geometry with }, h.numbers.limit, h.numbers.zero, h.numbers.ino⟩ (fun _ => rfl)
    hslot fun _ hj => hj

/-- A lookup that finds an inode in core reads. -/
theorem gas_lookup_reads (dev : DevCodec) {dir : Nat} {child : List UInt8} (hdir : d.InCore dir)
    (hfound : (gas_inode_by_name (d.ctx dir) child).1 = 0 ∨
      d.InCore (gas_inode_by_name (d.ctx dir) child).1) :
    ∃ t, (gas_lookup dev d dir child).2 = { d with vol := { d.vol with tick := t } } := by
  have htick : Ticked (d.ctx dir) (gas_inode_by_name (d.ctx dir) child).2 :=
    gas_iterate_ticked gas_match _ _ _
  obtain ⟨i, hi⟩ := hdir
  have hset := Fs.set_of_ticked hi htick
  obtain ⟨t, ht⟩ := htick
  unfold gas_lookup
  split_ifs
  · exact ⟨d.vol.tick, rfl⟩
  dsimp only
  rw [hset, ht]
  split_ifs with hzero
  · exact ⟨t, rfl⟩
  obtain ⟨j, hj⟩ := hfound.resolve_left hzero
  have hcached : ∀ v, gas_iget dev d.inodes v (gas_inode_by_name (d.ctx dir) child).1 =
      (.ok j, v) := fun v => by
    unfold gas_iget
    rw [hj]
  dsimp only
  rw [hcached]
  dsimp only
  rw [← hj, Function.update_eq_self]
  exact ⟨t, rfl⟩

/-- **A call through names**, whatever it returns; data go with the last reference only. -/
theorem Fs.Books.call (h : d.Books) {op : NameOp} (hable : op.Able d)
    (hcaller : ∀ env, op ≠ .caller env) {A : Set Nat} (hA : ∀ a ∈ A, d.InCore a)
    (hlast : ∀ a, op = .iput a → (d.inode a).i_nlink = 0 → a ∉ A) : d.KeptData A (op.call d).1 := by
  cases op with
  | mknod dir name mode rdev => exact h.new_nondir hable hA mode rdev
  | create dir name mode => exact h.new_nondir hable hA mode 0
  | symlink dir name symname => exact h.symlink hable hA symname
  | link inode dir name => exact h.link hable.1 hable.2
  | mkdir dir name mode => exact h.mkdir hable.1 hA (S_ISDIR_mkdir hable.2)
  | unlink dir name inode => exact (h.unlink hable.1 hable.2).toKeptData
  | rmdir dir name inode => exact (h.rmdir hable.1 hable.2).toKeptData
  | iput inode => exact h.iput_data hable (hlast inode rfl)
  | caller env => exact absurd rfl (hcaller env)

/-- **One operation keeps the books**, but for another caller. -/
theorem Fs.Books.sys_op (h : d.Books) (dev : DevCodec) {op : SysOp} (hable : op.Able d)
    (hcaller : ∀ env, op ≠ .name (.caller env)) : d.Kept (op.run dev d) := by
  cases op with
  | name op =>
    have hcall := (h.call hable (fun env he => hcaller env (by rw [he])) (A := ∅) (by simp)
      (by simp)).toKept
    unfold SysOp.run
    dsimp only
    split_ifs
    · cases op with
      | rmdir dir name inode =>
        have hun : d.StaysData ∅ (gas_rmdir d dir name inode).1 := h.rmdir hable.1 hable.2
        have hin := hun.inCore hable.2
        exact hcall.trans (hcall.books.modify hin bury_keepsTree).toKept
      | _ => exact hcall
    · exact hcall
  | rename old_dir old_name old_inode new_dir new_name new_inode =>
    obtain ⟨hold, hnew, hin, htarget⟩ := hable
    exact (h.rename hold hnew hin htarget (A := ∅)).toKept
  | lookup dir child =>
    obtain ⟨t, ht⟩ := gas_lookup_reads dev hable.1 hable.2
    rw [SysOp.run, ht]
    exact (h.tick t).toKept
  | readdir dir room pos => exact (h.scan hable (gas_iterate_ticked _ _ _ _)).toKept
  | readpage inode block =>
    exact (h.turn hable (fun c => (gas_get_block c block false).c)
      fun c hc => gas_get_block_ownStep hc block false).toKept
  | write inode pos len copied uptodate =>
    exact (h.turn hable (fun c => gas_write c pos len copied uptodate)
      fun c hc => gas_write_ownStep hc pos len copied uptodate).toKept
  | writepage inode block f =>
    exact (h.turn hable (fun c => gas_writepage c block f)
      fun c hc => gas_writepage_ownStep hc block f).toKept
  | truncate inode size =>
    have hsize := h.modify hable (f := fun i => { truncate_pagecache i size with i_size := size })
      fun _ => ⟨rfl, rfl, rfl⟩
    unfold SysOp.run
    dsimp only
    rw [notify_change_eq]
    exact hsize.toKept
  | write_inode inode => exact h.write_inode dev hable

end Step

/-! ## 3. Runs

The step lemma and two inductions: with any kernel, lost blocks only grow; with one that reads every
buffer, they stay what they were. -/

/-- Operations, each of which succeeds or fails, that `P` admits.  The state it begins with is any
with sound books. -/
inductive SysRun (dev : DevCodec) (P : SysOp → Prop) (d₀ : Fs Nat) : Fs Nat → Prop
  | start : SysRun dev P d₀ d₀
  | step {d : Fs Nat} (h : SysRun dev P d₀ d) (op : SysOp) (hable : op.Able d) (hp : P op) :
      SysRun dev P d₀ (op.run dev d)

section Run

variable {dev : DevCodec} {P : SysOp → Prop} {d₀ d : Fs Nat}

/-- The caller holds no block and no number. -/
theorem Fs.Books.sys_step (h : d.Books) (dev : DevCodec) {op : SysOp} (hable : op.Able d) :
    (op.run dev d).Books ∧ (op.run dev d).vol.sbi = d.vol.sbi ∧
      (op.run dev d).vol.s_blocksize_bits = d.vol.s_blocksize_bits ∧ d.lost ⊆ (op.run dev d).lost ∧
      (∀ k, (op.run dev d).Astray k → d.Astray k) ∧
      ((∀ n, d.vol.env.bread n = true) → op.Reads →
        (op.run dev d).lost = d.lost ∧ ∀ n, (op.run dev d).vol.env.bread n = true) := by
  by_cases hcaller : ∃ env, op = .name (.caller env)
  · obtain ⟨env, rfl⟩ := hcaller
    exact ⟨h.caller env, rfl, rfl, Set.Subset.refl _, fun _ hk => hk, fun _ hr => ⟨rfl, hr⟩⟩
  · rw [not_exists] at hcaller
    have hk := h.sys_op dev hable hcaller
    exact ⟨hk.books, hk.vol.sbi, hk.vol.bits, hk.lost, hk.astray, fun hio _ =>
      ⟨hk.exact hio, fun n => by rw [hk.vol.env]; exact hio n⟩⟩

/-- **Along every run the books are kept**: what is lost stays lost, and no number goes astray.  The
conclusion holds in every state on the way, since every prefix is a run. -/
theorem SysRun.books (h : SysRun dev P d₀ d) (h₀ : d₀.Books) :
    d.Books ∧ d.vol.sbi = d₀.vol.sbi ∧ d.vol.s_blocksize_bits = d₀.vol.s_blocksize_bits ∧
      d₀.lost ⊆ d.lost ∧ ∀ k, d.Astray k → d₀.Astray k := by
  induction h with
  | start => exact ⟨h₀, rfl, rfl, Set.Subset.refl _, fun _ hk => hk⟩
  | step _ op hable _ ih =>
    obtain ⟨hb, hsbi, hbits, hlost, hstray⟩ := ih
    obtain ⟨hb', hsbi', hbits', hlost', hstray', -⟩ := hb.sys_step dev hable
    exact ⟨hb', hsbi'.trans hsbi, hbits'.trans hbits, hlost.trans hlost', fun k hk =>
      hstray k (hstray' k hk)⟩

/-- **Where buffers can be read nothing is lost.** -/
theorem SysRun.lost_eq (h : SysRun dev SysOp.Reads d₀ d) (h₀ : d₀.Books)
    (hio : ∀ n, d₀.vol.env.bread n = true) :
    d.lost = d₀.lost ∧ ∀ n, d.vol.env.bread n = true := by
  induction h with
  | start => exact ⟨rfl, hio⟩
  | step hrun op hable hp ih =>
    obtain ⟨hlost, hr⟩ := ih
    obtain ⟨hlost', hr'⟩ := ((hrun.books h₀).1.sys_step dev hable).2.2.2.2.2 hr hp
    exact ⟨hlost'.trans hlost, hr'⟩

end Run

/-! ## 4. What `mkfs.gas` made

The first state of a run, with its books made out: one block held, four lost, and two numbers in
use. -/

/-- The file system with the root alone. -/
def root_fs (v : Vol) (i : Inode) : Fs Nat :=
  ⟨v, Function.update (fun _ => none) GAS_ROOT_INO (some i)⟩

/-- **The pointers of a new file system**: the root's to its first block. -/
theorem Fs.Fresh.root {d : Fs Nat} (h : d.Fresh) : ∃ size n v i, ShowsImage size v n ∧
    d = root_fs v i ∧ i.i_ino = GAS_ROOT_INO ∧ S_ISDIR i.i_mode = true ∧
    ∀ j < 9, i.blkaddr j = if j = 0 then n else 0 := by
  obtain ⟨who, size, dev₀, img, dev, host, env, v, root, hmk, hhost, hmount, rfl⟩ := h
  have hlarge := mounted_large hmk hhost hmount
  obtain ⟨n, hok, himg⟩ := mkfs_image hlarge hmk
  obtain ⟨hb, hi, tick, rdev, hv, hroot⟩ := himg.mounted hok hlarge hhost hmount
  obtain ⟨op, hop⟩ := gas_set_inode_eq
    (gas_inode_fill (iget_locked_new GAS_ROOT_INO) (root_record who n 520)) rdev
  rw [hop] at hroot
  refine ⟨size, n, v, _, himg.shows hok hlarge hhost hmount, rfl, ?_, ?_, fun j hj => ?_⟩
  · rw [hroot]
    rfl
  · rw [hroot]
    show S_ISDIR rootdir_mode = true
    decide
  · rw [hroot]
    simp only [Inode.paged, gas_inode_fill, dif_pos hj, root_record, Function.update_apply]
    exact if_congr Fin.ext_iff rfl rfl

section Fresh

variable {size n : Nat} {v : Vol} {i : Inode}

@[simp] theorem root_fs_vol : (root_fs v i).vol = v := rfl

/-- The root is in core. -/
theorem root_fs_root : (root_fs v i).inodes GAS_ROOT_INO = some i := by
  simp [root_fs]

/-- And nothing else. -/
theorem root_fs_other {k : Nat} (hk : k ≠ GAS_ROOT_INO) : (root_fs v i).inodes k = none := by
  simp [root_fs, hk]

/-- So what is in core is the root. -/
theorem root_fs_eq_some {k : Nat} {j : Inode} (h : (root_fs v i).inodes k = some j) :
    k = GAS_ROOT_INO ∧ j = i := by
  rcases eq_or_ne k GAS_ROOT_INO with rfl | hne
  · exact ⟨rfl, (Option.some.inj (root_fs_root.symm.trans h)).symm⟩
  · rw [root_fs_other hne] at h
    simp at h

/-- Its slots. -/
theorem root_fs_slot (hmode : S_ISDIR i.i_mode = true)
    (hptr : ∀ j < 9, i.blkaddr j = if j = 0 then n else 0) (k : Nat) {q : List Nat}
    (hq : shape.IsPath q) :
    (root_fs v i).slot k q = if k = GAS_ROOT_INO ∧ q = [0] then n else 0 := by
  by_cases hk : k = GAS_ROOT_INO
  · subst hk
    rw [Fs.slot_of_blocks root_fs_root (has_blocks_of_dir hmode)]
    cases q with
    | nil => exact hq.elim
    | cons j r =>
      obtain ⟨hj, hr, -⟩ := isPath_cons.mp hq
      rw [Ctx.val, PtrTree.val, hptr j hj]
      by_cases hj0 : j = 0
      · subst hj0
        obtain rfl : r = [] := List.eq_nil_of_length_eq_zero (Nat.le_zero.mp hr)
        rw [if_pos rfl, if_pos ⟨rfl, rfl⟩]
        rfl
      · rw [if_neg hj0, walk_zero, if_neg fun h => hj0 (List.cons.inj h.2).1]
  · rw [if_neg fun h => hk h.1, Fs.slot, root_fs_other hk]

/-- The superblock of a new volume, in numbers. -/
theorem ShowsImage.zone_iff (h : ShowsImage size v n) (b : Nat) :
    v.InZone b ↔ (filesys_param size).data_st ≤ b ∧ b < (filesys_param size).blk_cnt := by
  obtain ⟨-, -, hnb, -, -, hdata⟩ := mkfs_sbi_of_fits h.fits
  rw [Vol.InZone, h.sbi, hnb, hdata]

/-- In the data zone the five blocks reserved for the root are marked. -/
theorem ShowsImage.inUse_iff (h : ShowsImage size v n) {b : Nat} (hb : v.InZone b) :
    v.inUse b = true ↔ n ≤ b ∧ b < n + 5 := by
  have hz := (h.zone_iff b).mp hb
  have hcov := (filesys_param_counts size).2.2.1
  rw [h.bam b (by omega), decide_eq_true_iff]
  omega

/-- They are data blocks. -/
theorem ShowsImage.inZone (h : ShowsImage size v n) {b : Nat} (hlo : n ≤ b) (hhi : b < n + 5) :
    v.InZone b := by
  have hzone := h.zone
  have hroom := h.room
  exact (h.zone_iff b).mpr ⟨by omega, by omega⟩

/-- A slot of the new file system that is set is the first one of the root. -/
theorem root_fs_slot_ne (hmode : S_ISDIR i.i_mode = true)
    (hptr : ∀ j < 9, i.blkaddr j = if j = 0 then n else 0) {k : Nat} {q : List Nat}
    (hq : shape.IsPath q) (hne : (root_fs v i).slot k q ≠ 0) :
    (k = GAS_ROOT_INO ∧ q = [0]) ∧ (root_fs v i).slot k q = n := by
  rw [root_fs_slot hmode hptr k hq] at hne ⊢
  split_ifs at hne ⊢ with h
  · exact ⟨h, rfl⟩
  · exact absurd rfl hne

/-- Its one pointer is a block reserved for it. -/
theorem ShowsImage.root_sound (h : ShowsImage size v n) (hsize : v.sbi.s_nblocks ≤ 1073741824)
    (hmode : S_ISDIR i.i_mode = true) (hptr : ∀ j < 9, i.blkaddr j = if j = 0 then n else 0) :
    (root_fs v i).Sound := by
  have hn := h.inZone le_rfl (by omega)
  refine ⟨⟨(mkfs_geometry h.fits h.sbi h.bits).1, hsize⟩, h.laid.2.1, fun k k' q q' hq hq' hne he => ?_,
    fun k q hq hne => ?_, fun k q hq hne => ?_⟩
  · obtain ⟨⟨rfl, rfl⟩, -⟩ := root_fs_slot_ne hmode hptr hq hne
    obtain ⟨⟨rfl, rfl⟩, -⟩ := root_fs_slot_ne hmode hptr hq' (he ▸ hne)
    exact ⟨rfl, rfl⟩
  · rw [(root_fs_slot_ne hmode hptr hq hne).2]
    exact hn
  · rw [(root_fs_slot_ne hmode hptr hq hne).2]
    exact (h.inUse_iff hn).mpr ⟨le_rfl, by omega⟩

/-- There is a record for the root. -/
theorem ShowsImage.one_lt_ino_cnt (h : ShowsImage size v n) : 1 < (filesys_param size).ino_cnt := by
  have hpos := (ino_blk_pos h.large).1
  have hmul := (filesys_param_counts size).2.1
  omega

/-- Its number has a record, and the map gives out no number without one. -/
theorem ShowsImage.root_recorded (h : ShowsImage size v n) (hino : i.i_ino = GAS_ROOT_INO) :
    (root_fs v i).Recorded := by
  obtain ⟨hg, hlim, hle, hlimit, hcnt⟩ := mkfs_geometry h.fits h.sbi h.bits
  obtain ⟨-, -, -, -, -, hdata⟩ := mkfs_sbi_of_fits h.fits
  rw [← h.sbi] at hdata
  have hinos := h.one_lt_ino_cnt
  refine ⟨hlim, fun m hm => ?_, fun m hm hno => ?_, fun k j hk => ?_⟩
  · have hrec : InRecord v m (gas_inode_block v.sbi m) (gas_inode_offset v.sbi m / 4) :=
      ⟨rfl, le_refl _, by omega⟩
    have hlist := (hrec.in_list h.sbi h.fits hm).2
    rwa [← hdata] at hlist
  · rw [root_fs_vol] at hm hno ⊢
    rw [Vol.inoLimit] at hm
    rw [h.iam m (by rw [← hlimit]; exact hm), decide_eq_true_iff]
    omega
  · obtain ⟨rfl, rfl⟩ := root_fs_eq_some hk
    rw [hino, GAS_ROOT_INO, root_fs_vol]
    exact ⟨le_refl _, by omega, by rw [← Vol.inoLimit]; omega⟩

/-- The numbers 0 and 1 are marked, and the second is the root's. -/
theorem ShowsImage.root_numbersOk (h : ShowsImage size v n) (hino : i.i_ino = GAS_ROOT_INO) :
    (root_fs v i).NumbersOk := by
  obtain ⟨hg, hlim, hle, hlimit, hcnt⟩ := mkfs_geometry h.fits h.sbi h.bits
  have hinos := h.one_lt_ino_cnt
  refine ⟨hg, hlim, ?_, fun k j hk => ?_⟩
  · rw [root_fs_vol, h.iam 0 (by omega)]
    exact decide_eq_true (Or.inl (Nat.zero_le _))
  · obtain ⟨rfl, rfl⟩ := root_fs_eq_some hk
    refine ⟨hino, by decide, by decide, ?_⟩
    rw [root_fs_vol, h.iam GAS_ROOT_INO (by rw [GAS_ROOT_INO]; omega)]
    exact decide_eq_true (Or.inl (le_refl _))

/-- The root holds the first of the five blocks, and nobody the other four. -/
theorem ShowsImage.root_lost (h : ShowsImage size v n) (hmode : S_ISDIR i.i_mode = true)
    (hptr : ∀ j < 9, i.blkaddr j = if j = 0 then n else 0) :
    (root_fs v i).lost = Set.Icc (n + 1) (n + 4) := by
  have hfirst : shape.IsPath [0] :=
    isPath_cons.mpr ⟨by decide, Nat.zero_le _, fun _ hm => absurd hm List.not_mem_nil⟩
  ext b
  constructor
  · rintro ⟨⟨hb, hu⟩, hno⟩
    obtain ⟨h1, h2⟩ := (h.inUse_iff hb).mp hu
    have hpos := (mkfs_geometry h.fits h.sbi h.bits).1.data_pos
    have hne : b ≠ n := by
      rintro rfl
      refine hno GAS_ROOT_INO ⟨(hpos.trans_le hb.1).ne', [0], hfirst, ?_⟩
      rw [root_fs_slot hmode hptr GAS_ROOT_INO hfirst, if_pos ⟨rfl, rfl⟩]
    exact ⟨by omega, by omega⟩
  · rintro ⟨h1, h2⟩
    have hb := h.inZone (b := b) (by omega) (by omega)
    refine ⟨⟨hb, (h.inUse_iff hb).mpr ⟨by omega, by omega⟩⟩, ?_⟩
    rintro k ⟨hne, q, hq, he⟩
    have hslot := (root_fs_slot_ne hmode hptr hq (he ▸ hne)).2
    omega

/-- Number 0 and the padding are marked for no inode. -/
theorem ShowsImage.root_astray (h : ShowsImage size v n) {k : Nat} (hk : k < v.inoLimit) :
    (root_fs v i).Astray k ↔ k = 0 ∨ v.sbi.s_ninodes ≤ k := by
  obtain ⟨-, -, -, hlimit, hcnt⟩ := mkfs_geometry h.fits h.sbi h.bits
  have hinos := h.one_lt_ino_cnt
  have hin : (root_fs v i).InCore k ↔ k = GAS_ROOT_INO := by
    constructor
    · rintro ⟨j, hj⟩
      exact (root_fs_eq_some hj).1
    · rintro rfl
      exact ⟨i, root_fs_root⟩
  rw [Fs.Astray, hin, root_fs_vol, h.iam k (by omega), decide_eq_true_iff, GAS_ROOT_INO]
  omega

/-- **Its books**: the root holds its first block, and the four behind it are lost. -/
theorem ShowsImage.books (h : ShowsImage size v n) (hsize : v.sbi.s_nblocks ≤ 1073741824)
    (hino : i.i_ino = GAS_ROOT_INO) (hmode : S_ISDIR i.i_mode = true)
    (hptr : ∀ j < 9, i.blkaddr j = if j = 0 then n else 0) :
    (root_fs v i).Books ∧ (root_fs v i).lost = Set.Icc (n + 1) (n + 4) ∧
      ∀ k < v.inoLimit, (root_fs v i).Astray k ↔ k = 0 ∨ v.sbi.s_ninodes ≤ k :=
  ⟨⟨h.root_sound hsize hmode hptr, h.root_recorded hino, h.root_numbersOk hino⟩, h.root_lost hmode hptr,
    fun _ hk => h.root_astray hk⟩

end Fresh

/-! ## 5. Blocks and numbers add up

The blocks free, held and lost exclude each other and make up the data zone.  The numbers free, in
core and never given out make up the inode list.  `gas_statfs` shows the counts where it looks at
the right map blocks. -/

section Totals

variable {dev : DevCodec} {P : SysOp → Prop} {d₀ d : Fs Nat}

/-- The free blocks, the blocks held and the blocks lost make up the data zone.  The three sets are
disjoint, and a free block is one that is not marked. -/
theorem Fs.Books.blocks (h : d.Books) (hzone : d.vol.sbi.s_data_block_start ≤ d.vol.sbi.s_nblocks) :
    d.vol.sbi.s_data_block_start + d.vol.free.card + (⋃ k, d.held k).ncard + d.lost.ncard =
      d.vol.sbi.s_nblocks := by
  obtain ⟨hmark, hdisj⟩ := (Fs.sound_iff.mp h.sound).2.2.2.mark_eq
  have hzones : (d.vol.free : Set Nat) ∪ d.mark =
      Set.Ico d.vol.sbi.s_data_block_start d.vol.sbi.s_nblocks := by
    ext b
    rw [Set.mem_union, SetLike.mem_coe, mem_free]
    have hz : d.vol.InZone b ↔ b ∈ Set.Ico d.vol.sbi.s_data_block_start d.vol.sbi.s_nblocks := Iff.rfl
    rw [← hz]
    cases hu : d.vol.inUse b <;> simp [Fs.mark, hu]
  have hfin : d.mark.Finite :=
    (Set.finite_Ico d.vol.sbi.s_data_block_start d.vol.sbi.s_nblocks).subset
      (hzones ▸ Set.subset_union_right)
  have hparts : (⋃ k, d.held k).ncard + d.lost.ncard = d.mark.ncard := by
    rw [hmark] at hfin
    rw [hmark, Set.ncard_union_eq hdisj (hfin.subset Set.subset_union_left)
      (hfin.subset Set.subset_union_right)]
    rfl
  have hapart : Disjoint (d.vol.free : Set Nat) d.mark := by
    rw [Set.disjoint_left]
    rintro b hb ⟨-, hu⟩
    rw [SetLike.mem_coe, mem_free] at hb
    rw [hb.2] at hu
    simp at hu
  have htotal := Set.ncard_union_eq hapart d.vol.free.finite_toSet hfin
  rw [hzones, Set.ncard_coe_finset, ← Nat.card_coe_set_eq, Nat.card_eq_fintype_card,
    Fintype.card_Ico, Nat.card_Ico] at htotal
  omega

/-- A new file system, and what a run from it comes to. -/
theorem SysRun.from_fresh (hrun : SysRun dev P d₀ d) (h₀ : d₀.Fresh)
    (hsize : d₀.vol.sbi.s_nblocks ≤ 1073741824) :
    d.Books ∧ Laid d.vol ∧ d.vol.sbi = d₀.vol.sbi ∧ d₀.Books ∧ d₀.lost ⊆ d.lost ∧
      d₀.lost.ncard = 4 ∧
      ∀ k < d.vol.inoLimit, d.vol.inodeInUse k = true ↔
        k = 0 ∨ d.vol.sbi.s_ninodes ≤ k ∨ d.InCore k := by
  obtain ⟨size, n, v, i, hs, rfl, hino, hmode, hptr⟩ := h₀.root
  obtain ⟨hbooks, hlost, hstray⟩ := hs.books hsize hino hmode hptr
  obtain ⟨hb, hsbi, hbits, hsub, hk⟩ := SysRun.books hrun hbooks
  have hlaid := hs.laid.1
  have hsbi' : d.vol.sbi = v.sbi := hsbi
  refine ⟨hb, ?_, hsbi, hbooks, hsub, ?_, fun k hlim => ?_⟩
  · refine ⟨hb.numbers.geometry, ?_, ?_, ?_, ?_, ?_, ?_, ?_⟩ <;> rw [hsbi']
    exacts [hlaid.bam_tight, hlaid.nblocks_lt, hlaid.zone, hlaid.ninodes_pos, hlaid.ninodes_lt,
      hlaid.iam_covers, hlaid.iam_tight]
  · rw [hlost, ← Nat.card_coe_set_eq, Nat.card_eq_fintype_card,
      Fintype.card_Icc, Nat.card_Icc]
    omega
  · have hlim' : k < v.inoLimit := by
      rw [Vol.inoLimit, hsbi'] at hlim
      exact hlim
    constructor
    · intro hu
      by_cases hin : d.InCore k
      · exact Or.inr (Or.inr hin)
      · rw [hsbi', ← or_assoc]
        exact Or.inl ((hstray k hlim').mp (hk k ⟨hu, hin⟩))
    · rintro (rfl | hge | ⟨j, hj⟩)
      · exact hb.numbers.zero
      · exact hb.numbered.padded k hlim fun hlt => absurd hlt.2.1 (not_lt_of_ge hge)
      · exact (hb.numbers.ino k j hj).2.2.2

/-- The books of a new file system. -/
theorem Fs.Fresh.books (h : d.Fresh) (hsize : d.vol.sbi.s_nblocks ≤ 1073741824) : d.Books := by
  obtain ⟨size, n, v, i, hs, rfl, hino, hmode, hptr⟩ := h.root
  exact (hs.books hsize hino hmode hptr).1

/-- The free numbers, the inodes in core and number 0 make up the inode list.  Number 0 is marked
and no inode has it. -/
theorem Fs.Books.numbers_add_up (h : d.Books) (hlaid : Laid d.vol)
    (hin : ∀ k < d.vol.inoLimit, d.vol.inodeInUse k = true ↔
      k = 0 ∨ d.vol.sbi.s_ninodes ≤ k ∨ d.InCore k) :
    d.vol.freeInodes.card + {k | d.InCore k}.ncard + 1 = d.vol.sbi.s_ninodes := by
  have hcov := hlaid.iam_covers
  have hpos := hlaid.ninodes_pos
  have hlim : d.vol.sbi.s_ninodes ≤ d.vol.inoLimit := hcov
  -- the numbers in use below the limit are 0 and those of the inodes in core
  have hused : (((Finset.range d.vol.sbi.s_ninodes).filter fun k => ¬d.vol.inodeInUse k = false :
      Finset Nat) : Set Nat) = insert 0 {k | d.InCore k} := by
    ext k
    simp only [Finset.coe_filter, Finset.mem_range, Bool.not_eq_false, Set.mem_ofPred_eq,
      Set.mem_insert_iff]
    constructor
    · rintro ⟨hlt, hu⟩
      rcases (hin k (by omega)).mp hu with h0 | hge | hk
      · exact Or.inl h0
      · omega
      · exact Or.inr hk
    · rintro (rfl | ⟨i, hi⟩)
      · exact ⟨hpos, h.numbers.zero⟩
      · have hnum := h.numbered.ino k i hi
        rw [(h.numbers.ino k i hi).1] at hnum
        exact ⟨hnum.2.1, (h.numbers.ino k i hi).2.2.2⟩
  have hzero : 0 ∉ {k | d.InCore k} := by
    rintro ⟨i, hi⟩
    exact absurd (h.numbers.ino 0 i hi).2.1 (lt_irrefl _)
  have hsplit := Finset.card_filter_add_card_filter_not (s := Finset.range d.vol.sbi.s_ninodes)
    fun k => d.vol.inodeInUse k = false
  have hfin : {k | d.InCore k}.Finite := (Finset.finite_toSet _).subset
    (hused ▸ Set.subset_insert 0 {k | d.InCore k})
  have hcard := Set.ncard_insert_of_notMem hzero hfin
  rw [← hused, Set.ncard_coe_finset] at hcard
  rw [Finset.card_range] at hsplit
  rw [Vol.freeInodes]
  omega

/-- A new megabyte whose kernel refuses nothing. -/
theorem calm_megabyte : ∃ d : Fs Nat, d.Fresh ∧ d.vol.env = calm_env ∧ d.vol.sbi = mkfs_sbi 1048576 ∧
    d.HasTree GAS_ROOT_INO := by
  obtain ⟨img, v, root, -, -, hfresh, henv, hsbi, -⟩ := mounted_megabyte
  obtain ⟨_, _, _, i, -, he, -, hmode, -⟩ := hfresh.root
  exact ⟨_, hfresh, henv, hsbi, i, by rw [he]; exact root_fs_root, has_blocks_of_dir hmode⟩

/-- **`df` adds up.**  Where buffers can be read, the free blocks, the blocks held and the four that
`mkfs.gas` lost are all there are, after any operations; where the two counts of `gas_statfs` look at
the right map blocks, it shows these numbers. -/
theorem SysRun.statfs_adds_up (hrun : SysRun dev SysOp.Reads d₀ d) (h₀ : d₀.Fresh)
    (hsize : d₀.vol.sbi.s_nblocks ≤ 1073741824) (hio : ∀ n, d₀.vol.env.bread n = true)
    (hround : d₀.vol.sbi.s_data_block_start ≤ (d₀.vol.sbi.s_nblocks - 1) % 32768 + 1)
    (hpart : ¬32768 ∣ d₀.vol.sbi.s_ninodes) :
    ∃ s, gas_statfs d.vol = some s ∧ s.f_bfree + (⋃ k, d.held k).ncard + 4 = s.f_blocks ∧
      s.f_ffree + {k | d.InCore k}.ncard + 1 = s.f_files := by
  obtain ⟨hb, hlaid, hsbi, hb₀, -, hfour, hin⟩ := hrun.from_fresh h₀ hsize
  have hlost := (hrun.lost_eq hb₀ hio).1
  have hblocks := hb.blocks hlaid.zone.le
  rw [hlost, hfour] at hblocks
  have hipad : d.vol.IamPadded := fun k hge hlim =>
    hb.numbered.padded k hlim fun hlt => absurd hlt.2.1 (not_lt_of_ge hge)
  rw [← hsbi] at hround hpart
  refine ⟨_, gas_statfs_eq hlaid hb.sound.padded hipad hround hpart, ?_, hb.numbers_add_up hlaid hin⟩
  dsimp only
  omega

/-- The same on a megabyte. -/
theorem megabyte_adds_up : ∃ (d₀ d : Fs Nat) (s : Kstatfs), d₀.Fresh ∧ gas_statfs d.vol = some s ∧
    s.f_bfree + (⋃ k, d.held k).ncard + 4 = s.f_blocks ∧
    s.f_ffree + {k | d.InCore k}.ncard + 1 = s.f_files := by
  obtain ⟨d, hfresh, henv, hsbi, hroot⟩ := calm_megabyte
  have hrun : SysRun linux_dev SysOp.Reads d _ :=
    SysRun.start.step (.name (.mkdir GAS_ROOT_INO [97] 0)) ⟨hroot, rfl⟩ trivial
  obtain ⟨s, hs⟩ := hrun.statfs_adds_up hfresh (by rw [hsbi]; decide) (fun n => by rw [henv]; rfl)
    (by rw [hsbi]; decide) (by rw [hsbi]; decide)
  exact ⟨_, _, s, hfresh, hs⟩

end Totals

end GasFs
