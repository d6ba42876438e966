/-
# Names and contents

The namespace does not see what is done to the contents of files: reads, writes wherever they fail, size
changes, pages and inodes written back, lookups and listings (`SysOp.OnFile`) change no name, no link
count and no directory (`Fs.Consistent.file_op`), nor does an unmount that is mounted again
(`Again.consistent`).

`WholeRun` puts all together: calls, operations on files and mounts, in any order.  Its names, directories
and link counts still are what the acts of the successful calls make of the root alone
(`WholeRun.refines`).

The refinement is of the whole component: on one side everything that can be done to a mounted file
system, on the other a space of names that knows the acts of `Namespace.Act`.  An operation on
contents is no act at all, and a call that fails and undoes what it did is none either.

The conditions of a run are stated in its constructors, with what each step assumes: page reads that
succeed, a call that the VFS allows, an inode in core.
-/
import GasFs.Contents
import GasFs.Namei.Atomic

namespace GasFs

open Bytes SlotTable Namespace

/-! ## 1. Operations on files

An operation on a file changes its pointers, pages, size and times.  For a directory none of its
slots changes, for a file there are none to see, and the space is the same in both cases. -/

/-- What is done to contents: no call through names; written and cut are no directories.  A
directory may be listed, read and written back, but not written or cut. -/
def SysOp.OnFile (d : Fs Nat) : SysOp → Prop
  | .name _ => False
  | .rename _ _ _ _ _ _ => False
  | .write inode _ _ _ _ => S_ISDIR (d.inode inode).i_mode = false
  | .truncate inode _ => S_ISDIR (d.inode inode).i_mode = false
  | _ => True

section File

variable {dev : DevCodec} {d : Fs Nat} {k : Nat} {i : Inode} {c : Ctx}

/-- A write changes blocks and its inode's contents. -/
theorem gas_write_step (c : Ctx) (pos len copied : Nat) (uptodate : Bool) :
    BlockStep c.v (gas_write c pos len copied uptodate).v ∧
      DirStep c.inode (gas_write c pos len copied uptodate).inode := by
  have hbegin := gas_write_begin_step c pos len
  unfold gas_write
  generalize gas_write_begin c pos len = r at hbegin
  obtain ⟨c1, _ | e⟩ := r
  · obtain ⟨hv, hs⟩ := hbegin
    unfold gas_write_end
    dsimp only
    generalize (if copied < len ∧ uptodate = false then 0 else copied) = ret
    have hsize : (if c1.inode.i_size < pos + ret then
        { c1 with inode := { c1.inode with i_size := pos + ret } } else c1).v = c1.v ∧
        DirStep c1.inode (if c1.inode.i_size < pos + ret then
          { c1 with inode := { c1.inode with i_size := pos + ret } } else c1).inode := by
      split_ifs
      · exact ⟨rfl, _, _, _, _, _, rfl⟩
      · exact ⟨rfl, DirStep.refl _⟩
    generalize (if c1.inode.i_size < pos + ret then
      { c1 with inode := { c1.inode with i_size := pos + ret } } else c1) = c2 at hsize
    obtain ⟨hv2, hs2⟩ := hsize
    split_ifs
    · obtain ⟨hv3, hs3⟩ := gas_write_failed_step c2 (pos + len)
      rw [hv2] at hv3
      exact ⟨hv.trans hv3, (hs.trans hs2).trans hs3⟩
    · rw [hv2]
      exact ⟨hv, hs.trans hs2⟩
  · exact hbegin

/-- A page written back is no change of the inode but to its pointers. -/
theorem gas_writepage_mapStep (c : Ctx) (n : Nat) (f : Nat → Nat) : MapStep c (gas_writepage c n f) := by
  have hget := gas_get_block_mapStep c n true
  unfold gas_writepage
  dsimp only
  cases (gas_get_block c n true).mapped with
  | none => exact hget
  | some b => exact hget.trans (.of_vol ⟨_, _, _, _, rfl⟩)

/-- What is no directory by its type is none in the space. -/
theorem Fs.not_isDir (hk : d.inodes k = some i) (hmode : S_ISDIR (d.inode k).i_mode = false) :
    ¬d.isDir k = true := by
  rw [Fs.isDir_of hk, ← Fs.inode_of hk, hmode]
  simp

/-- A change of the volume alone. -/
theorem Fs.Consistent.set_vol {v : Vol} (h : d.Consistent) (hb : Fs.Books { d with vol := v }) :
    Fs.Consistent { d with vol := v } :=
  h.undone rfl ⟨hb.numbers, h.named.dirs⟩ (Buried.refl d)

/-- A change of an inode that leaves its slots if it is a directory.  An inode that is no directory
shows its link count alone. -/
theorem Fs.Consistent.set_file (h : d.Consistent) (hk : d.inodes k = some i) (hv : BlockStep d.vol c.v)
    (hs : DirStep i c.inode) (hdir : d.isDir k = true → DirOk c.inode ∧ c.inode.slots = i.slots) :
    (d.set k c).Consistent ∧ (d.set k c).space = d.space := by
  have hframe := Fs.frame_set hk hv hs
  have hdirs : (d.set k c).DirsOk := h.named.dirs.set hk hs fun hd => by
    obtain ⟨hok, hslots⟩ := hdir hd
    rw [hslots, ← Fs.inode_of hk]
    exact ⟨hok, (h.named.dirs k hd).2⟩
  have hspace : (d.set k c).space = d.space := by
    by_cases hd : d.isDir k = true
    · exact Fs.space_same hk hs (hdir hd).2
    · rw [Fs.space_set hk hs]
      simp only [Fs.space, Space.mk.injEq, true_and]
      funext q
      split_ifs with hq
      · rw [Fs.entry, hq, if_neg hd]
      · rfl
  exact ⟨h.undone hspace ⟨h.numbers.frame hframe, hdirs⟩ hframe.buried, hspace⟩

/-- A change of pointers leaves the slots. -/
theorem Fs.Consistent.set_map (h : d.Consistent) (hk : d.inodes k = some i) (hm : MapStep (d.ctx k) c) :
    (d.set k c).Consistent ∧ (d.set k c).space = d.space := by
  have hs := hm.dirStep
  have hsame := hm.sameDir
  rw [Fs.ctx_inode, Fs.inode_of hk] at hs hsame
  refine h.set_file hk hm.1 hs fun hd => ?_
  have hok := (h.named.dirs k hd).1
  rw [Fs.inode_of hk] at hok
  have hun := hsame.unchanged hok
  exact ⟨hun.ok, hun.slots⟩

/-- **An operation on a file changes nothing of the namespace.** -/
theorem Fs.Consistent.file_op (h : d.Consistent) (hb : d.Books) (dev : DevCodec) {op : SysOp}
    (hable : op.Able d) (hfile : op.OnFile d) :
    (op.run dev d).Consistent ∧ (op.run dev d).space = d.space := by
  have hbooks := (hb.sys_step dev hable).1
  cases op with
  | name op => exact hfile.elim
  | rename old_dir old_name old_inode new_dir new_name new_inode => exact hfile.elim
  | lookup dir child =>
    obtain ⟨t, ht⟩ := gas_lookup_reads dev hable.1 hable.2
    rw [SysOp.run, ht] at hbooks ⊢
    exact ⟨h.set_vol hbooks, rfl⟩
  | readdir dir room pos =>
    obtain ⟨i, hi⟩ := hable
    exact h.set_map hi (gas_iterate_ticked _ _ _ _).mapStep
  | readpage inode block =>
    obtain ⟨i, hi, -⟩ := hable
    exact h.set_map hi (gas_get_block_mapStep _ _ _)
  | write inode pos len copied uptodate =>
    obtain ⟨i, hi, -⟩ := hable
    obtain ⟨hv, hs⟩ := gas_write_step (d.ctx inode) pos len copied uptodate
    rw [Fs.ctx_inode, Fs.inode_of hi] at hs
    exact h.set_file hi hv hs fun hd => absurd hd (Fs.not_isDir hi hfile)
  | writepage inode block f =>
    obtain ⟨i, hi, -⟩ := hable
    exact h.set_map hi (gas_writepage_mapStep _ _ _)
  | truncate inode size =>
    obtain ⟨i, hi⟩ := hable
    have hs : DirStep i (notify_change (d.ctx inode) size).inode := by
      rw [notify_change_eq, Fs.ctx_inode, Fs.inode_of hi]
      exact ⟨_, _, _, _, _, rfl⟩
    have hv : BlockStep d.vol (notify_change (d.ctx inode) size).v := by
      rw [notify_change_eq]
      exact BlockStep.refl d.vol
    exact h.set_file hi hv hs fun hd => absurd hd (Fs.not_isDir hi hfile)
  | write_inode inode =>
    exact ⟨h.set_vol hbooks, rfl⟩

end File

/-! ## 2. Runs

The invariant is `Traced`, from the calls.  Two steps are added to those of `GasFs.Namei.Atomic`,
the operation on a file and the mount, and both leave the space as it is. -/

/-- An unmounted file system is mounted again as a consistent one. -/
theorem Again.consistent {dev : DevCodec} {d d' : Fs Nat} {ks : List Nat} {host : Host}
    (h : Again dev d ks host d') (hb : d.Books) (hc : d.Consistent) :
    d'.Consistent ∧ d'.Books ∧ d'.space = d.space := by
  have hsame := remount h hb hc.named.dirs
  refine ⟨hc.undone hsame.space ⟨hsame.books.numbers, hsame.dirs⟩ fun k i' hk hdead => ?_, hsame.books,
    hsame.space⟩
  -- what is read in is not removed
  obtain ⟨t, rfl⟩ := (h.restored hb).inode k i' hk
  obtain ⟨op, rdev, he⟩ := read_inode_eq dev d'.vol k
  rw [Inode.paged, he] at hdead
  exact absurd hdead Bool.false_ne_true

/-- Calls that the VFS allows, each of which succeeds, or fails and undoes what it did; operations
on files, that succeed or fail; unmounts that are mounted again; and the acts of the calls that
succeed.  The list of acts is that of the calls in their order. -/
inductive WholeRun (dev : DevCodec) (d₀ : Fs Nat) : List (Act Nat (List UInt8)) → Fs Nat → Prop
  | start : WholeRun dev d₀ [] d₀
  | done {as : List (Act Nat (List UInt8))} {d d' : Fs Nat} (h : WholeRun dev d₀ as d) (op : NameOp)
      (hallowed : op.Allowed d) (hreads : op.Reads) (hcall : op.call d = (d', none)) :
      WholeRun dev d₀ (as ++ (op.act d).toList) (op.mark d')
  | undone {as : List (Act Nat (List UInt8))} {d d' : Fs Nat} {e : Errno} (h : WholeRun dev d₀ as d)
      (op : NameOp) (hallowed : op.Allowed d) (hundo : op.Undoes d)
      (hcall : op.call d = (d', some e)) : WholeRun dev d₀ as d'
  | file {as : List (Act Nat (List UInt8))} {d : Fs Nat} (h : WholeRun dev d₀ as d) (op : SysOp)
      (hable : op.Able d) (hfile : op.OnFile d) : WholeRun dev d₀ as (op.run dev d)
  | again {as : List (Act Nat (List UInt8))} {d d' : Fs Nat} (h : WholeRun dev d₀ as d) (ks : List Nat)
      (host : Host) (hagain : Again dev d ks host d') (hreads : ∀ n, d'.vol.env.pgread n = true) :
      WholeRun dev d₀ as d'

section Runs

variable {dev : DevCodec} {d₀ d d' : Fs Nat} {as : List (Act Nat (List UInt8))}
  {s : Space Nat (List UInt8)}

/-- An operation on a file. -/
theorem Traced.file (h : Traced s as d) (dev : DevCodec) {op : SysOp} (hable : op.Able d)
    (hfile : op.OnFile d) : Traced s as (op.run dev d) := by
  obtain ⟨hc, hb, hr, htrace⟩ := h
  obtain ⟨hc', hspace⟩ := hc.file_op hb dev hable hfile
  have hkept := hb.sys_op dev hable fun env he => by
    rw [he] at hfile
    exact hfile
  exact ⟨hc', hkept.books, fun n => by rw [hkept.vol.env]; exact hr n, hspace ▸ htrace⟩

/-- A mount. -/
theorem Traced.again (h : Traced s as d) {ks : List Nat} {host : Host} (hagain : Again dev d ks host d')
    (hreads : ∀ n, d'.vol.env.pgread n = true) : Traced s as d' := by
  obtain ⟨hc', hb', hspace⟩ := hagain.consistent h.books h.consistent
  exact ⟨hc', hb', hreads, hspace ▸ h.trace⟩

/-- **A run is a trace of acts.** -/
theorem WholeRun.spec (hrun : WholeRun dev d₀ as d) (h : Traced s [] d₀) : Traced s as d := by
  induction hrun with
  | start => exact h
  | done _ op hallowed hreads hcall ih => exact ih.done hallowed hreads hcall
  | undone _ op hallowed hundo hcall ih => exact ih.undone hallowed hundo hcall
  | file _ op hable hfile ih => exact ih.file dev hable hfile
  | again _ ks host hagain hreads ih => exact ih.again hagain hreads

/-- **What is done to contents, and mounts, do not show in the namespace.** From a new file system
on, in any order of calls, operations on files and mounts, the names, the directories and the link
counts are what the acts of the successful calls make of the root alone.  The names after the run
can be computed from the list alone. -/
theorem WholeRun.refines (hrun : WholeRun dev d₀ as d) (h₀ : d₀.Fresh)
    (hsize : d₀.vol.sbi.s_nblocks ≤ 1073741824) (hio : ∀ n, d₀.vol.env.pgread n = true) :
    Trace dot dotdot (.alone dot dotdot GAS_ROOT_INO) as d.space :=
  (hrun.spec (h₀.traced hsize hio)).trace

/-- A directory can be made on a new megabyte. -/
theorem megabyte_mkdir : ∃ (d d' : Fs Nat) (x : Nat), d.Fresh ∧ d.vol.sbi.s_nblocks ≤ 1073741824 ∧
    (∀ n, d.vol.env.pgread n = true) ∧ (NameOp.mkdir GAS_ROOT_INO [97] 0).Allowed d ∧
    (NameOp.mkdir GAS_ROOT_INO [97] 0).call d = (d', none) ∧ d'.entry (GAS_ROOT_INO, [97]) = some x := by
  obtain ⟨d, hfresh, hio, hroom, hspare, hroot, hslots, hl⟩ := fresh_megabyte
  have hn : IsName [97] := ⟨by decide, by decide, by decide⟩
  have habs : d.entry (GAS_ROOT_INO, [97]) = none := by
    rw [Fs.entry_of_isDir hroot, hslots]
    decide
  have hhole : hole (d.inode GAS_ROOT_INO).slots = 2 := by
    rw [hslots]
    rfl
  obtain ⟨d', x, hcall, -, -, hput, hdir, -⟩ := gas_mkdir_runs (k := 245) (m := 61) hfresh.consistent hroom
    hspare (S_ISDIR_mkdir (show (0 : BitVec 16) &&& S_IFMT = 0 from rfl)) hroot hn habs
    (by rw [hhole]; decide)
  have hallowed : (NameOp.mkdir GAS_ROOT_INO [97] 0).Allowed d := ⟨⟨hn, hroot, habs⟩, rfl, by
    rw [hl]
    decide⟩
  refine ⟨d, d', x, hfresh, hroom.geometry.nblocks_le, hio, hallowed, hcall, ?_⟩
  rw [Fs.entry_of_isDir hdir, hput, hslots]
  simp [put, dot, dotdot, lookup_cons_some]

/-- A directory is made on a new megabyte, and the root is listed. -/
theorem megabyte_refines : ∃ (d : Fs Nat) (x : Nat), d.entry (GAS_ROOT_INO, [97]) = some x ∧
    Trace dot dotdot (.alone dot dotdot GAS_ROOT_INO) [.mkdir GAS_ROOT_INO [97]] d.space := by
  obtain ⟨d, d', x, hfresh, hsize, hio, hallowed, hcall, hentry⟩ := megabyte_mkdir
  have hdone : WholeRun linux_dev d [.mkdir GAS_ROOT_INO [97]] d' :=
    WholeRun.start.done _ hallowed trivial hcall
  obtain ⟨i, hi⟩ := Fs.isDir_some (Fs.isDir_of_entry hentry)
  have hrun := hdone.file (.readdir GAS_ROOT_INO 10 0) ⟨i, hi⟩ trivial
  have htraced := hdone.spec (hfresh.traced hsize hio)
  have hspace := (htraced.consistent.file_op htraced.books linux_dev (show (SysOp.readdir GAS_ROOT_INO 10 0).Able d' from
    ⟨i, hi⟩) trivial).2
  exact ⟨_, x, (congrFun (congrArg Space.entry hspace) _).trans hentry, hrun.refines hfresh hsize hio⟩

end Runs

end GasFs
