/-
# Names: `kern/gas_namei.c`

The operations of the VFS on names, translated one by one.  They run on a mounted file system whose
in-core inodes are held under their numbers: a `struct inode *` is the number of the inode, and a
dentry is the number of its directory, its name, and the number of its inode.

An operation on one inode gets that inode and the volume (`Fs.ctx`) and gives both back (`Fs.set`).
References are not counted: where a function drops one, the model says whether it is the last.

What the VFS does around a call is not here: it looks a name up before it asks for a new one, it
does not call `gas_rmdir` for a mount point, and it marks a removed directory as dead.  The runs of
`GasFs.Namei.Run` put that in.  `gas_rename` has a module of its own, `GasFs.Namei.Rename`.

Each function returns the file system and an error, if any.  A failure in the middle returns what
was done up to there, as the source leaves it.
-/
import GasFs.Dir.Listing
import GasFs.InodeTable
import GasFs.Page

namespace GasFs

/-! ## 1. Inodes by number

Two accesses, and the equations by which they cancel.  With `Fs.ctx` an operation on one inode of an
earlier module is run on the inode under a number, and `Fs.set` puts the result back. -/

/-- The inode under a number.  A number not in core shows a blank inode, so that the function is
total. -/
def Fs.inode (d : Fs Nat) (k : Nat) : Inode := (d.inodes k).getD (iget_locked_new k)

/-- That inode, and the volume. -/
def Fs.ctx (d : Fs Nat) (k : Nat) : Ctx := ⟨d.vol, d.inode k, 0⟩

/-- A change of the inode alone.  Nothing else in the file system changes, the volume included. -/
def Fs.modify (d : Fs Nat) (k : Nat) (f : Inode → Inode) : Fs Nat :=
  { d with inodes := Function.update d.inodes k (some (f (d.inode k))) }

/-- The context of a number has its inode. -/
@[simp] theorem Fs.ctx_inode (d : Fs Nat) (k : Nat) : (d.ctx k).inode = d.inode k := rfl

@[simp] theorem Fs.ctx_v (d : Fs Nat) (k : Nat) : (d.ctx k).v = d.vol := rfl

@[simp] theorem Fs.set_vol (d : Fs Nat) (k : Nat) (c : Ctx) : (d.set k c).vol = c.v := rfl

@[simp] theorem Fs.modify_vol (d : Fs Nat) (k : Nat) (f : Inode → Inode) :
    (d.modify k f).vol = d.vol := rfl

@[simp] theorem Fs.set_inode (d : Fs Nat) (k : Nat) (c : Ctx) : (d.set k c).inode k = c.inode := by
  simp [Fs.set, Fs.inode]

/-- Other inodes are not changed. -/
theorem Fs.set_inode_of_ne (d : Fs Nat) {k j : Nat} (h : j ≠ k) (c : Ctx) :
    (d.set k c).inode j = d.inode j := by
  simp [Fs.set, Fs.inode, h]

@[simp] theorem Fs.modify_inode (d : Fs Nat) (k : Nat) (f : Inode → Inode) :
    (d.modify k f).inode k = f (d.inode k) := by
  simp [Fs.modify, Fs.inode]

theorem Fs.modify_inode_of_ne (d : Fs Nat) {k j : Nat} (h : j ≠ k) (f : Inode → Inode) :
    (d.modify k f).inode j = d.inode j := by
  simp [Fs.modify, Fs.inode, h]

/-- Two changes of one inode. -/
theorem Fs.modify_modify (d : Fs Nat) (k : Nat) (f g : Inode → Inode) :
    (d.modify k f).modify k g = d.modify k (g ∘ f) := by
  simp only [Fs.modify, Fs.inode, Function.update_idem, Function.update_self, Option.getD_some,
    Function.comp_apply]

/-- A scan leaves every inode as it is. -/
theorem Fs.set_ticked (d : Fs Nat) (k j : Nat) {c : Ctx} (h : Ticked (d.ctx k) c) :
    (d.set k c).ctx j = ⟨c.v, d.inode j, 0⟩ := by
  have hi : c.inode = d.inode k := h.inode
  have hj : (d.set k c).inode j = d.inode j := by
    rcases eq_or_ne j k with rfl | hne
    · rw [Fs.set_inode, hi]
    · exact d.set_inode_of_ne hne c
  rw [Fs.ctx, hj, Fs.set_vol]

/-! ## 2. Lookup

`gas_lookup` finds the number of a name and gets the inode with `gas_iget`.  The answer has three
forms, as `d_splice_alias` and the error pointer make them in the source. -/

/-- What `gas_lookup` returns: an error pointer, or `NULL`, with or without an inode attached to the
dentry.  `null (some k)` is the answer with an inode, as `d_splice_alias` returns it. -/
inductive Lookup where
  | err (e : Errno)
  | null (inode : Option Nat)
  deriving DecidableEq, Repr

/-- `gas_lookup`.  A name that is too long is refused before the directory is looked at. -/
def gas_lookup (dev : DevCodec) (d : Fs Nat) (dir : Nat) (name : List UInt8) : Lookup × Fs Nat :=
  if GAS_MAX_NAME_LEN ≤ name.length then (.err .ENAMETOOLONG, d)
  else
    let r := gas_inode_by_name (d.ctx dir) name
    let ino := r.1
    let d := d.set dir r.2
    if ino = 0 then (.null none, d)
    else
      match gas_iget dev d.inodes d.vol ino with
      | (.error e, v) => (.err e, { d with vol := v })
      | (.ok inode, v) => (.null (some ino), ⟨v, Function.update d.inodes ino (some inode)⟩)

/-! ## 3. Removing names

`gas_unlink` deletes the record and takes a link from the inode.  `gas_rmdir` does so for a
directory that `gas_empty_dir` finds empty, and takes the links of `.` and `..` as well. -/

/-- `gas_unlink`.  The inode's change time is that of the directory, and its link goes last. -/
def gas_unlink (d : Fs Nat) (dir : Nat) (name : List UInt8) (inode : Nat) : Fs Nat × Option Errno :=
  match gas_find_entry (d.ctx dir) name with
  | (none, c) => (d.set dir c, some .ENOENT)
  | (some (n, p), c) =>
    match gas_delete_entry c n p with
    | (c, some e) => (d.set dir c, some e)
    | (c, none) =>
      let d := d.set dir c
      let d := d.modify inode fun i => { i with i_ctime := (d.inode dir).i_ctime }
      (d.modify inode inode_dec_link_count, none)

/-- `gas_rmdir`.  The page that `gas_empty_dir` cannot read is passed over, so a directory with
records may go. -/
def gas_rmdir (d : Fs Nat) (dir : Nat) (name : List UInt8) (inode : Nat) : Fs Nat × Option Errno :=
  match gas_empty_dir (d.ctx inode) with
  | (false, c) => (d.set inode c, some .ENOTEMPTY)
  | (true, c) =>
    match gas_unlink (d.set inode c) dir name inode with
    | (d, some e) => (d, some e)
    | (d, none) => ((d.modify dir inode_dec_link_count).modify inode inode_dec_link_count, none)

/-! ## 4. New names

Each of these makes an inode, or takes one that is there, and enters it in the directory.  The exits differ in what
they take back: `add_nondir` drops a reference and no link, `gas_mkdir` takes two links from the new
directory and one from its parent. -/

/-- `insert_inode_hash`. -/
def Fs.hash (d : Fs Nat) (inode : Inode) : Fs Nat :=
  { d with inodes := Function.update d.inodes inode.i_ino (some inode) }

/-- `iput` of the last reference: an inode without links is evicted, any other stays cached.
Eviction cuts the file to nothing and gives the number back. -/
def Fs.iput (d : Fs Nat) (k : Nat) : Fs Nat :=
  if (d.inode k).i_nlink = 0 then
    ⟨(gas_evict_inode (d.ctx k)).v, Function.update d.inodes k none⟩
  else d

/-- `add_nondir`; `last` tells whether `iput` drops the last reference. -/
def add_nondir (d : Fs Nat) (dir : Nat) (name : List UInt8) (inode : Nat) (last : Bool) :
    Fs Nat × Option Errno :=
  match gas_add_link (d.ctx dir) name (d.inode inode).i_ino with
  | (c, none) => (d.set dir c, none)
  | (c, some e) => (if last then (d.set dir c).iput inode else d.set dir c, some e)

/-- What `gas_mknod` and `gas_create` do: a new inode, a new name for it. -/
def new_nondir (d : Fs Nat) (dir : Nat) (name : List UInt8) (mode : BitVec 16) (rdev : Nat) :
    Fs Nat × Option Errno :=
  match gas_new_inode d.vol (d.inode dir) mode with
  | (err, none, v) => ({ d with vol := v }, err)
  | (_, some inode, v) =>
    add_nondir (Fs.hash { d with vol := v } (gas_set_inode inode rdev)) dir name inode.i_ino true

/-- `gas_mknod`.  `new_valid_dev` accepts every number. -/
def gas_mknod (d : Fs Nat) (dir : Nat) (name : List UInt8) (mode : BitVec 16) (rdev : Nat) :
    Fs Nat × Option Errno := new_nondir d dir name mode rdev

/-- `gas_create`. -/
def gas_create (d : Fs Nat) (dir : Nat) (name : List UInt8) (mode : BitVec 16) :
    Fs Nat × Option Errno := new_nondir d dir name mode 0

/-- `page_symlink` of Linux: the body is written as a file's first bytes, without its NUL. It is a
write of the length of the body from byte 0 on, through the functions of `gas_itree.c`. -/
def page_symlink (c : Ctx) (symname : List UInt8) : Ctx × Option Errno :=
  match gas_write_begin c 0 symname.length with
  | (c, some e) => (c, some e)
  | (c, none) =>
    let c := { c with inode := c.inode.setPage 0 fun kaddr a =>
      if a < symname.length then symname.getD a 0 else kaddr a }
    ((gas_write_end c 0 symname.length symname.length false).1, none)

/-- `gas_symlink`. -/
def gas_symlink (d : Fs Nat) (dir : Nat) (name symname : List UInt8) : Fs Nat × Option Errno :=
  if d.vol.sbi.s_blocksize < symname.length + 1 then (d, some .ENAMETOOLONG)
  else
    match gas_new_inode d.vol (d.inode dir) (S_IFLNK ||| 0o777#16) with
    | (err, none, v) => ({ d with vol := v }, err)
    | (_, some inode, v) =>
      let d := Fs.hash { d with vol := v } (gas_set_inode inode 0)
      match page_symlink (d.ctx inode.i_ino) symname with
      | (c, some e) =>
        (((d.set inode.i_ino c).modify inode.i_ino inode_dec_link_count).iput inode.i_ino, some e)
      | (c, none) => add_nondir (d.set inode.i_ino c) dir name inode.i_ino true

/-- `gas_link`.  The dentry linked to holds another reference.  It is not checked against the bound
on links; the VFS does that. -/
def gas_link (d : Fs Nat) (inode dir : Nat) (name : List UInt8) : Fs Nat × Option Errno :=
  let d := d.modify inode fun i => { i with i_ctime := d.vol.now }
  add_nondir (d.modify inode inode_inc_link_count) dir name inode false

/-- `gas_mkdir` from the label `out_fail` on.  The two links are those of `.` and of the name. -/
def mkdir_fail (d : Fs Nat) (dir inode : Nat) : Fs Nat :=
  let d := (d.modify inode inode_dec_link_count).modify inode inode_dec_link_count
  (d.iput inode).modify dir inode_dec_link_count

/-- `gas_mkdir`.  The link for `..` is counted in the parent before anything else is done. -/
def gas_mkdir (d : Fs Nat) (dir : Nat) (name : List UInt8) (mode : BitVec 16) :
    Fs Nat × Option Errno :=
  let d := d.modify dir inode_inc_link_count
  match gas_new_inode d.vol (d.inode dir) (S_IFDIR ||| mode) with
  | (err, none, v) => (Fs.modify { d with vol := v } dir inode_dec_link_count, err)
  | (_, some inode, v) =>
    let k := inode.i_ino
    let d := Fs.hash { d with vol := v } (gas_set_inode (inode_inc_link_count inode) 0)
    match gas_make_empty (d.ctx k) (d.inode dir).i_ino with
    | (c, some e) => (mkdir_fail (d.set k c) dir k, some e)
    | (c, none) =>
      let d := d.set k c
      match gas_add_link (d.ctx dir) name (d.inode k).i_ino with
      | (c, some e) => (mkdir_fail (d.set dir c) dir k, some e)
      | (c, none) => (d.set dir c, none)

end GasFs
