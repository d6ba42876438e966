/-
# Runs of calls

`NameOp` is what is done to a mounted file system through names: the calls of `gas_namei.c`, as the VFS
makes them, the last `iput` of an inode, and a change of caller, by which other requests fail than before.
`NameRun` is any sequence of successful ones on what `mkfs.gas` made (`Fs.Fresh`).

All of them keep the file system consistent, if `gas_rmdir` removes none but deserted directories
(`NameRun.consistent`).  It does when page reads succeed, and then the directories are a tree
(`namespace_is_tree`).  When they do not, `gas_empty_dir` passes over the pages it cannot read, and the
entries on them are gone while the inodes they named keep their link counts: `links_exact_run` holds on
the condition, and `links_not_exact` shows a run without it.

What a run admits is a parameter: the predicate `P` says which operations may occur in which state.
The theorems about runs differ in it.  With page reads that succeed it is `NameOp.Reads`, with reads
that fail it is `NameOp.Spares`, and with `True` it is every run the VFS can make.
-/
import GasFs.Mkfs.Agree
import GasFs.Namei.Room

namespace GasFs

open Bytes SlotTable Namespace

/-! ## 1. Operations

`Allowed` is what the VFS checks before it calls: the name is absent or present, the type fits, and
the inode is the one the entry names.  `act` is what the caller wants of the namespace.  Neither
mentions what the call does. -/

/-- What is done to a mounted file system. -/
inductive NameOp where
  | mknod (dir : Nat) (name : List UInt8) (mode : BitVec 16) (rdev : Nat)
  | create (dir : Nat) (name : List UInt8) (mode : BitVec 16)
  | symlink (dir : Nat) (name symname : List UInt8)
  | link (inode dir : Nat) (name : List UInt8)
  | mkdir (dir : Nat) (name : List UInt8) (mode : BitVec 16)
  | unlink (dir : Nat) (name : List UInt8) (inode : Nat)
  | rmdir (dir : Nat) (name : List UInt8) (inode : Nat)
  /-- the last reference to an inode is dropped -/
  | iput (inode : Nat)
  /-- another caller, to whom the kernel answers in another way -/
  | caller (env : Env)

/-- The call, and the error it returns. -/
def NameOp.call (d : Fs Nat) : NameOp → Fs Nat × Option Errno
  | .mknod dir name mode rdev => gas_mknod d dir name mode rdev
  | .create dir name mode => gas_create d dir name mode
  | .symlink dir name symname => gas_symlink d dir name symname
  | .link inode dir name => gas_link d inode dir name
  | .mkdir dir name mode => gas_mkdir d dir name mode
  | .unlink dir name inode => gas_unlink d dir name inode
  | .rmdir dir name inode => gas_rmdir d dir name inode
  | .iput inode => (d.iput inode, none)
  | .caller env => ({ d with vol := { d.vol with env := env } }, none)

/-- The VFS marks a directory that was removed.  A call that failed is not followed by a mark. -/
def NameOp.mark (d : Fs Nat) : NameOp → Fs Nat
  | .rmdir _ _ inode => d.bury inode
  | _ => d

/-- A name to be entered: it is absent from its directory, which is not removed.  The directory is
one of the tree and not one that was removed. -/
structure NewName (d : Fs Nat) (dir : Nat) (name : List UInt8) : Prop where
  isName : IsName name
  live : d.isDir dir = true
  absent : d.entry (dir, name) = none

/-- A name to be removed: the inode of its dentry is the one its entry names.  Neither `.` nor `..`
may be removed; the VFS refuses both. -/
structure OldName (d : Fs Nat) (dir : Nat) (name : List UInt8) (inode : Nat) : Prop where
  isName : IsName name
  ne_dot : name ≠ dot
  ne_dotdot : name ≠ dotdot
  entry : d.entry (dir, name) = some inode

/-- What the VFS sees to before it calls. -/
def NameOp.Allowed (d : Fs Nat) : NameOp → Prop
  | .mknod dir name mode _ => NewName d dir name ∧ S_ISDIR mode = false
  | .create dir name mode => NewName d dir name ∧ S_ISDIR mode = false
  | .symlink dir name _ => NewName d dir name
  | .link inode dir name => NewName d dir name ∧ (∃ q, d.entry q = some inode) ∧
      S_ISDIR (d.inode inode).i_mode = false ∧ (d.inode inode).i_nlink.toNat < GAS_LINK_MAX
  | .mkdir dir name mode => NewName d dir name ∧ mode &&& S_IFMT = 0 ∧
      (d.inode dir).i_nlink.toNat < GAS_LINK_MAX
  | .unlink dir name inode => OldName d dir name inode ∧ S_ISDIR (d.inode inode).i_mode = false
  | .rmdir dir name inode => OldName d dir name inode ∧ S_ISDIR (d.inode inode).i_mode = true
  | .iput inode => (d.inodes inode).isSome = true
  | .caller _ => True

/-- What is asked of the namespace.  What succeeds must do just this to the namespace. -/
def NameOp.act (d : Fs Nat) : NameOp → Option (Act Nat (List UInt8))
  | .mknod dir name _ _ => some (.create dir name)
  | .create dir name _ => some (.create dir name)
  | .symlink dir name _ => some (.create dir name)
  | .link inode dir name => some (.link inode dir name)
  | .mkdir dir name _ => some (.mkdir dir name)
  | .unlink dir name _ => some (.unlink dir name)
  | .rmdir dir name _ => some (.rmdir dir name)
  | .iput inode => if (d.inode inode).i_nlink = 0 then some (.drop inode) else none
  | .caller _ => none

/-- A directory that is removed is deserted.  For all other operations there is nothing to say. -/
def NameOp.Spares (d : Fs Nat) : NameOp → Prop
  | .rmdir _ _ inode => Deserted (d.inode inode)
  | _ => True

/-- Page reads do not begin to fail. -/
def NameOp.Reads : NameOp → Prop
  | .caller env => ∀ n, env.pgread n = true
  | _ => True

/-- Successful operations, each of which the VFS allows and `P` admits.  A failed call does not
occur; runs with failures are in `GasFs.Namei.Unique` and `GasFs.System`. -/
inductive NameRun (P : Fs Nat → NameOp → Prop) (d₀ : Fs Nat) : Fs Nat → Prop
  | start : NameRun P d₀ d₀
  | step {d d' : Fs Nat} (h : NameRun P d₀ d) (op : NameOp) (hallowed : op.Allowed d) (hp : P d op)
      (hcall : op.call d = (d', none)) : NameRun P d₀ (op.mark d')

/-! ## 2. Runs keep the tree

A step lemma for each operation, from the specifications of the calls, and the run by induction.
The condition that a removed directory is deserted is needed for one operation only. -/

section Step

variable {d d' d₀ : Fs Nat} {op : NameOp}

/-- The type that `gas_mkdir` adds is the only one there. -/
theorem S_ISDIR_mkdir {mode : BitVec 16} (h : mode &&& S_IFMT = 0) :
    S_ISDIR (S_IFDIR ||| mode) = true := by
  rw [S_ISDIR, BitVec.and_or_distrib_right, h]
  decide

/-- The caller does not matter. -/
theorem Fs.Consistent.caller (h : d.Consistent) (env : Env) :
    Fs.Consistent { d with vol := { d.vol with env := env } } where
  numbers :=
    ⟨{ h.numbers.geometry with }, h.numbers.limit, h.numbers.zero, h.numbers.ino⟩
  named := ⟨h.named.ino, h.named.dead, h.named.dirs, h.named.tree⟩

/-- **A successful call does what is asked**, and one that asks nothing changes no name and no
count.  The mark of the VFS belongs to the step of `gas_rmdir`. -/
theorem Fs.Consistent.call_did (h : d.Consistent) (hallowed : op.Allowed d) (hspares : op.Spares d)
    (hcall : op.call d = (d', none)) : (∃ a, op.act d = some a ∧ d.Did a (op.mark d')) ∨
      op.act d = none ∧ (op.mark d').Consistent ∧ (op.mark d').space = d.space ∧
        ((∃ env, op = .caller env ∧ (op.mark d').vol.env = env) ∨ op.mark d' = d) := by
  cases op with
  | mknod dir name mode rdev =>
    obtain ⟨hnew, hmode⟩ := hallowed
    exact Or.inl ⟨_, rfl, h.new_nondir hmode hnew.live hnew.isName hnew.absent hcall⟩
  | create dir name mode =>
    obtain ⟨hnew, hmode⟩ := hallowed
    exact Or.inl ⟨_, rfl, h.new_nondir hmode hnew.live hnew.isName hnew.absent hcall⟩
  | symlink dir name symname =>
    exact Or.inl ⟨_, rfl, h.symlink hallowed.live hallowed.isName hallowed.absent hcall⟩
  | link inode dir name =>
    obtain ⟨hnew, ⟨q, hq⟩, hmode, hlinks⟩ := hallowed
    exact Or.inl ⟨_, rfl, h.link hq hmode hlinks hnew.live hnew.isName hnew.absent hcall⟩
  | mkdir dir name mode =>
    obtain ⟨hnew, hmode, hlinks⟩ := hallowed
    exact Or.inl ⟨_, rfl, h.mkdir (S_ISDIR_mkdir hmode) hlinks hnew.live hnew.isName hnew.absent hcall⟩
  | unlink dir name inode =>
    obtain ⟨hold, hmode⟩ := hallowed
    exact Or.inl ⟨_, rfl, h.unlink hold.isName hold.entry hmode hcall⟩
  | rmdir dir name inode =>
    obtain ⟨hold, hmode⟩ := hallowed
    exact Or.inl ⟨_, rfl,
      h.rmdir hold.isName hold.ne_dot hold.ne_dotdot hold.entry hmode hspares hcall⟩
  | iput inode =>
    obtain ⟨i, hi⟩ := Option.isSome_iff_exists.mp hallowed
    obtain ⟨rfl, -⟩ := Prod.mk.inj hcall
    unfold Fs.iput
    by_cases hl : (d.inode inode).i_nlink = 0
    · rw [if_pos hl]
      exact Or.inl ⟨_, if_pos hl, h.evict hi (by rw [← hl, Fs.inode_of hi])⟩
    · rw [if_neg hl]
      exact Or.inr ⟨if_neg hl, h, rfl, Or.inr rfl⟩
  | caller env =>
    obtain ⟨rfl, -⟩ := Prod.mk.inj hcall
    exact Or.inr ⟨rfl, h.caller env, rfl, Or.inl ⟨env, rfl, rfl⟩⟩

/-- **One operation keeps the file system consistent**, and the kernel as it is. -/
theorem Fs.Consistent.call_op (h : d.Consistent) (hallowed : op.Allowed d) (hspares : op.Spares d)
    (hcall : op.call d = (d', none)) : (op.mark d').Consistent ∧
      ((∃ env, op = .caller env ∧ (op.mark d').vol.env = env) ∨ SameVol d.vol (op.mark d').vol) := by
  rcases h.call_did hallowed hspares hcall with ⟨a, -, hdid⟩ | ⟨-, hc, -, henv | hd⟩
  · exact ⟨hdid.consistent, Or.inr hdid.vol⟩
  · exact ⟨hc, Or.inl henv⟩
  · exact ⟨hc, Or.inr (by rw [hd]; exact SameVol.refl _)⟩

/-- **Runs that remove none but deserted directories keep the file system consistent.** The kernel
may refuse any request on the way. -/
theorem NameRun.consistent (h : NameRun (fun d op => op.Spares d) d₀ d) (h₀ : d₀.Consistent) :
    d.Consistent := by
  induction h with
  | start => exact h₀
  | step _ op hallowed hp hcall ih => exact (ih.call_op hallowed hp hcall).1

/-- When pages can be read, `gas_rmdir` removes none but deserted directories. -/
theorem Fs.Consistent.spares (h : d.Consistent) (hio : ∀ n, d.vol.env.pgread n = true)
    (hallowed : op.Allowed d) (hcall : op.call d = (d', none)) : op.Spares d := by
  cases op with
  | rmdir dir name inode =>
    obtain ⟨hold, hmode⟩ := hallowed
    have hxdir := h.named.isDir_of_entry hold.entry hmode
    obtain ⟨i, hi⟩ := Fs.isDir_some hxdir
    have ho : (gas_rmdir d dir name inode).2 = none := congrArg Prod.snd hcall
    have hempty := (gas_empty_dir_iff (c := d.ctx inode) (h.named.dirs inode hxdir).1).mp
      ((gas_rmdir_eq_none_iff d dir name inode).mp ho).1
    intro t e hs
    by_contra hno
    rw [not_or] at hno
    have hread := hempty t e hs (Or.inl hno)
    rw [Fs.ctx_v, hio] at hread
    exact absurd hread (by simp)
  | _ => trivial

/-- So all runs do. -/
theorem NameRun.consistent_of_reads (h : NameRun (fun _ op => op.Reads) d₀ d) (h₀ : d₀.Consistent)
    (hio : ∀ n, d₀.vol.env.pgread n = true) :
    d.Consistent ∧ ∀ n, d.vol.env.pgread n = true := by
  induction h with
  | start => exact ⟨h₀, hio⟩
  | step _ op hallowed hp hcall ih =>
    obtain ⟨hc, hr⟩ := ih
    obtain ⟨hc', ⟨env, rfl, henv⟩ | hv⟩ := hc.call_op hallowed (hc.spares hr hallowed hcall) hcall
    · exact ⟨hc', fun n => by rw [henv]; exact hp n⟩
    · exact ⟨hc', fun n => by rw [hv.env]; exact hr n⟩

end Step

/-! ## 3. Live entries

The same facts at the level of records: a record in use in a directory that is not removed.  Since
no name is twice in a directory, records and names are in bijection, and link counts can be read as
numbers of records. -/

/-- The record `t` of a directory that is not removed holds the number under the name.  A directory
that was removed may still have records, and they do not count. -/
def Fs.LiveEntry (d : Fs Nat) (dir t : Nat) (name : List UInt8) (inode : Nat) : Prop :=
  d.isDir dir = true ∧ (d.inode dir).slots[t]? = some (some (name, inode))

/-- The link counts are the numbers of live entries, and what these name has its bit in the inode
map set.  The records `.` and `..` are entries like others, so they count as links. -/
structure Fs.LinksExact (d : Fs Nat) : Prop where
  counted : ∀ k i, d.inodes k = some i →
    {q : Nat × Nat | ∃ name, d.LiveEntry q.1 q.2 name k}.encard = i.i_nlink.toNat
  marked : ∀ dir t name k, d.LiveEntry dir t name k →
    (∃ i, d.inodes k = some i) ∧ d.vol.inodeInUse k = true

section Live

variable {d : Fs Nat} {dir t k : Nat} {name : List UInt8}

/-- A live entry is what the directory holds under its name. -/
theorem Fs.LiveEntry.entry (h : d.LiveEntry dir t name k) (hd : d.DirsOk) :
    d.entry (dir, name) = some k := by
  rw [Fs.entry_of_isDir h.1]
  exact lookup_of_mem_live (hd dir h.1).2 (mem_live.mpr (List.mem_of_getElem? h.2))

/-- An entry is in some record. -/
theorem exists_liveEntry (h : d.entry (dir, name) = some k) : ∃ t, d.LiveEntry dir t name k := by
  have hdir : d.isDir dir = true := Fs.isDir_of_entry h
  rw [Fs.entry_of_isDir hdir] at h
  obtain ⟨t, ht⟩ := List.mem_iff_getElem?.mp (mem_live.mp (mem_live_of_lookup h))
  exact ⟨t, hdir, ht⟩

/-- No name is twice in one directory. -/
theorem Fs.LiveEntry.unique {t' k' : Nat} (h : d.LiveEntry dir t name k)
    (h' : d.LiveEntry dir t' name k') (hd : d.DirsOk) : t' = t :=
  (hd dir h.1).2.slot_inj h'.2 h.2

/-- **There are as many live entries of an inode as places that hold it.** Slots are not shared, so
each place is one record. -/
theorem encard_liveEntry (hd : d.DirsOk) (k : Nat) :
    {q : Nat × Nat | ∃ name, d.LiveEntry q.1 q.2 name k}.encard = (refs d.entry k).encard := by
  obtain ⟨f, hf⟩ : ∃ f : Nat × Nat → Nat × List UInt8, ∀ dir t name k,
      d.LiveEntry dir t name k → f (dir, t) = (dir, name) := by
    refine ⟨fun q => (q.1, (((d.inode q.1).slots[q.2]?.join).map Prod.fst).getD []), ?_⟩
    intro dir t name k h
    simp [h.2]
  have himage : refs d.entry k = f '' {q : Nat × Nat | ∃ name, d.LiveEntry q.1 q.2 name k} := by
    ext ⟨dir, name⟩
    constructor
    · intro hq
      obtain ⟨t, ht⟩ := exists_liveEntry hq
      exact ⟨(dir, t), ⟨name, ht⟩, hf dir t name k ht⟩
    · rintro ⟨⟨dir', t⟩, ⟨name', h⟩, he⟩
      rw [hf dir' t name' k h] at he
      rw [← he]
      exact h.entry hd
  rw [himage, Set.InjOn.encard_image]
  rintro ⟨dir, t⟩ ⟨name, h⟩ ⟨dir', t'⟩ ⟨name', h'⟩ he
  rw [hf dir t name k h, hf dir' t' name' k h'] at he
  obtain ⟨rfl, rfl⟩ := Prod.mk.inj he
  exact congrArg (Prod.mk dir) (h.unique h' hd).symm

/-- **In a consistent file system the link counts are exact.** -/
theorem Fs.Consistent.linksExact (h : d.Consistent) : d.LinksExact where
  counted k i hk := by
    have hc : (refs d.entry k).encard = ((d.space.nlink k).getD 0 : Nat) := h.named.tree.counted k
    rw [encard_liveEntry h.named.dirs k, hc, Fs.nlink_of hk, Option.getD_some]
  marked dir t name k hl := by
    obtain ⟨i, hi⟩ := h.named.used (hl.entry h.named.dirs)
    exact ⟨⟨i, hi⟩, (h.numbers.ino k i hi).2.2.2⟩

/-- **A directory removed with a name in it** leaves what that name held with a link too many.  The
name is gone with the directory, and the link it was counted for is not. -/
theorem Fs.Consistent.rmdir_loses {d' : Fs Nat} {x y : Nat} {l : List UInt8} (h : d.Consistent)
    (hold : OldName d dir name x) (hmode : S_ISDIR (d.inode x).i_mode = true)
    (hentry : d.entry (x, l) = some y) (hdx : dir ≠ x) (hyd : y ≠ dir) (hyx : y ≠ x)
    (hr : gas_rmdir d dir name x = (d', none)) : ¬(d'.bury x).LinksExact := by
  intro hexact
  have hxdir := h.named.isDir_of_entry hold.entry hmode
  obtain ⟨i, hi⟩ := h.named.used hold.entry
  obtain ⟨m, hm⟩ := h.named.tree.dir_used (Fs.isDir_of_entry hold.entry)
  obtain ⟨n, hn⟩ := h.named.tree.dir_links ⟨hold.entry, hold.ne_dot, hold.ne_dotdot⟩ hxdir
  obtain ⟨hframe, hdirs, hout⟩ := h.named.dirs.rmdir hold.isName (Fs.isDir_of_entry hold.entry) hi
  rw [hr] at hframe hdirs hout
  obtain ⟨e, he, -⟩ | ⟨-, d1, hspace1, hd'⟩ := hout
  · simp at he
  rw [toNat_dec (Option.some.inj ((Fs.nlink_of hi).symm.trans hn))] at hspace1
  have hspace := Fs.rmdir_links hdx hm hspace1
  dsimp only at hframe hdirs hspace hd'
  rw [← hd'] at hspace
  obtain ⟨i', hi', -⟩ := hframe.after hi
  have hbury := Fs.space_bury hi'
  have hentry' : d'.entry = Function.update d.entry (dir, name) none := congrArg Space.entry hspace
  have hkept : ∀ q z, (d'.bury x).entry q = some z → q.1 ≠ x ∧ d.entry q = some z := by
    intro q z hq
    rw [show (d'.bury x).entry q = _ from congrFun (congrArg Space.entry hbury) q] at hq
    dsimp only at hq
    split_ifs at hq with hqx
    rw [hentry', Function.update_apply] at hq
    split_ifs at hq
    exact ⟨hqx, hq⟩
  have hlinks : (d'.bury x).space.nlink y = d.space.nlink y := by
    rw [hbury, hspace]
    exact (Function.update_of_ne hyd _ _).trans (Function.update_of_ne hyx _ _)
  obtain ⟨j, hj⟩ := h.named.used hentry
  obtain ⟨j', hj', hl⟩ : ∃ j', (d'.bury x).inodes y = some j' ∧ j'.i_nlink = j.i_nlink := by
    obtain ⟨j', hj', -⟩ := hframe.after hj
    have hb : (d'.bury x).inodes y = some j' := (Function.update_of_ne hyx _ _).trans hj'
    exact ⟨j', hb, Fs.nlink_eq hlinks hj hb⟩
  -- one place less holds it, and it has as many links
  have hall : (refs d.entry y).encard = (j.i_nlink.toNat : ℕ∞) := by
    rw [← h.linksExact.counted y j hj, encard_liveEntry h.named.dirs]
  have hrest : (refs (d'.bury x).entry y).encard = (j.i_nlink.toNat : ℕ∞) := by
    rw [← hl, ← hexact.counted y j' hj', encard_liveEntry (hdirs.bury x)]
  have hlt : (refs (d'.bury x).entry y).encard < (refs d.entry y).encard := by
    refine (Set.finite_of_encard_eq_coe hrest).encard_lt_encard ?_
    refine (Set.ssubset_iff_of_subset fun q hq => (hkept q y hq).2).mpr ⟨(x, l), hentry, fun hq => ?_⟩
    exact (hkept (x, l) y hq).1 rfl
  rw [hall, hrest] at hlt
  exact absurd hlt (lt_irrefl _)

end Live

/-! ## 4. What `mkfs.gas` made

A run begins with a device that `mkfs.gas` has formatted and a kernel has mounted.  All that is in
core then is the root, with its two entries and two links. -/

/-- A file system after the mount, the pages of the root read in as they are on the device.  The
root is in core because the mount has read it. -/
def mounted_fs (v : Vol) (root : Inode) : Fs Nat where
  vol := v
  inodes := Function.update (fun _ => none) GAS_ROOT_INO
    (some (root.paged { v with env := { v.env with bread := fun _ => true } }))

/-- **A file system that was just made and mounted.** The root directory is in core, with the pages
it has on the device. -/
def Fs.Fresh (d : Fs Nat) : Prop :=
  ∃ who size dev₀ img dev host env v root, mkfs_main who size dev₀ = some img ∧
    Host.Holds host img ∧ (gas_fill_super dev host env).result = .ok (v, root) ∧
    d = mounted_fs v root

/-- What is known of it: the root, and a volume that shows the image. -/
theorem Fs.Fresh.spec {d : Fs Nat} (h : d.Fresh) : ∃ size n v i, ShowsImage size v n ∧
    d = ⟨v, Function.update (fun _ => none) GAS_ROOT_INO (some i)⟩ ∧ i.i_ino = GAS_ROOT_INO ∧
    i.i_nlink = 2 ∧ S_ISDIR i.i_mode = true ∧ i.dead = false ∧ i.blkaddr 0 = n ∧ DirOk i ∧
    i.slots = [some (dot, GAS_ROOT_INO), some (dotdot, GAS_ROOT_INO)] := by
  obtain ⟨who, size, dev₀, img, dev, host, env, v, root, hmk, hhost, hmount, rfl⟩ := h
  have hlarge := mounted_large hmk hhost hmount
  obtain ⟨n, hok, himg⟩ := mkfs_image hlarge hmk
  obtain ⟨hb, hi, tick, rdev, hv, hroot⟩ := himg.mounted hok hlarge hhost hmount
  obtain ⟨op, hop⟩ := gas_set_inode_eq
    (gas_inode_fill (iget_locked_new GAS_ROOT_INO) (root_record who n 520)) rdev
  rw [hop] at hroot
  have hsize : root.i_size = 520 := by rw [hroot]; rfl
  have h0 : root.blkaddr 0 = n := by rw [hroot]; rfl
  have hread : ∀ k, ({ env with bread := fun _ => true } : Env).bread k = true := fun _ => rfl
  obtain ⟨hd, hslots⟩ := (himg.rootBlock hok hb hi hread
    (v := { v with env := { v.env with bread := fun _ => true } }) (by rw [hv]; rfl) hsize h0).spec
  refine ⟨size, n, v, _, himg.shows hok hlarge hhost hmount, rfl, ?_, ?_, ?_, ?_, h0, hd, hslots⟩
  · rw [hroot]
    rfl
  · rw [hroot]
    rfl
  · rw [hroot]
    show S_ISDIR rootdir_mode = true
    decide
  · rw [hroot]
    rfl

/-- The root of a new file system is all there is. -/
theorem Fs.Fresh.only {d : Fs Nat} (h : d.Fresh) : ∃ i, d.inodes GAS_ROOT_INO = some i ∧
    i.i_ino = GAS_ROOT_INO ∧ i.i_nlink = 2 ∧ i.dead = false ∧ DirOk i ∧
    i.slots = [some (dot, GAS_ROOT_INO), some (dotdot, GAS_ROOT_INO)] ∧
    (∀ k j, d.inodes k = some j → k = GAS_ROOT_INO ∧ j = i) ∧
    ∀ k, d.isDir k = true ↔ k = GAS_ROOT_INO := by
  obtain ⟨size, n, v, i, -, rfl, hino, hl, hmode, hdead, -, hok, hslots⟩ := h.spec
  have hone : (Function.update (fun _ => none) GAS_ROOT_INO (some i) : Nat → Option Inode)
      GAS_ROOT_INO = some i := by rw [Function.update_self]
  have hroot : ∀ k j, Function.update (fun _ => none) GAS_ROOT_INO (some i) k = some j →
      k = GAS_ROOT_INO ∧ j = i := by
    intro k j hk
    rcases eq_or_ne k GAS_ROOT_INO with rfl | hne
    · exact ⟨rfl, (Option.some.inj (hone.symm.trans hk)).symm⟩
    · rw [Function.update_of_ne hne] at hk
      simp at hk
  refine ⟨i, hone, hino, hl, hdead, hok, hslots, hroot, fun k => ⟨fun hk => ?_, ?_⟩⟩
  · obtain ⟨j, hj⟩ := Fs.isDir_some hk
    exact (hroot k j hj).1
  · rintro rfl
    rw [Fs.isDir_of (i := i) hone, hmode, hdead]
    rfl

/-- **Its namespace.** -/
theorem Fs.Fresh.space {d : Fs Nat} (h : d.Fresh) : d.space = .alone dot dotdot GAS_ROOT_INO := by
  obtain ⟨i, hone, -, hl, -, -, hslots, hroot, hdir⟩ := h.only
  obtain ⟨-, -, hlook⟩ := two_entries (k := GAS_ROOT_INO) (p := GAS_ROOT_INO) (by decide)
    (by decide) (by decide) (by decide)
  simp only [Fs.space, Space.alone, Space.mk.injEq]
  refine ⟨funext fun k => ?_, Set.ext hdir, funext fun q => ?_⟩
  · rcases eq_or_ne k GAS_ROOT_INO with rfl | hne
    · rw [hone, Option.map_some, hl, if_pos rfl]
      rfl
    · rw [if_neg hne, Option.map_eq_none_iff, Option.eq_none_iff_forall_ne_some]
      exact fun j hj => hne (hroot k j hj).1
  · obtain ⟨k, l⟩ := q
    by_cases hk : k = GAS_ROOT_INO
    · subst hk
      rw [Fs.entry_of_isDir ((hdir _).mpr rfl), Fs.inode_of hone, hslots, hlook]
      simp only [Prod.mk.injEq, true_and, ite_or]
    · rw [Fs.entry, if_neg fun h => hk ((hdir k).mp h)]
      simp [hk]

/-- **What `mkfs.gas` made is consistent**: the tree is the root alone. -/
theorem Fs.Fresh.consistent {d : Fs Nat} (h : d.Fresh) : d.Consistent := by
  have hspace := h.space
  obtain ⟨i, hone, hino, -, hdead, hok, hslots, hroot, hdir⟩ := h.only
  obtain ⟨size, n, v, _, hs, rfl, -⟩ := h.spec
  obtain ⟨hg, hlim, hle, hcnt, -⟩ := mkfs_geometry hs.fits hs.sbi hs.bits
  have hpos : 0 < (filesys_param size).iam_blk := (ino_blk_pos hs.large).2.1
  have hbit : ∀ k ≤ 1, v.inodeInUse k = true := fun k hk => by
    rw [hs.iam k (by omega)]
    exact decide_eq_true (Or.inl hk)
  obtain ⟨-, huniq, -⟩ := two_entries (k := GAS_ROOT_INO) (p := GAS_ROOT_INO) (by decide)
    (by decide) (by decide) (by decide)
  refine ⟨⟨hg, hlim, hbit 0 (by omega), fun k j hk => ?_⟩, fun k j hk => ?_, fun k j hk hj => ?_,
    fun k hk => ?_, ?_⟩
  · obtain ⟨rfl, rfl⟩ := hroot k j hk
    exact ⟨hino, by decide, by decide, hbit 1 (by omega)⟩
  · obtain ⟨rfl, rfl⟩ := hroot k j hk
    exact ⟨hino, by decide⟩
  · obtain ⟨rfl, rfl⟩ := hroot k j hk
    rw [hdead] at hj
    simp at hj
  · obtain rfl := (hdir k).mp hk
    rw [Fs.inode_of hone, hslots]
    exact ⟨hok, huniq⟩
  · rw [hspace]
    exact tree_root (by decide) GAS_ROOT_INO

/-- A megabyte, formatted, and mounted by a kernel that refuses nothing. -/
theorem mounted_megabyte : ∃ img v root, mkfs_main root_caller 1048576 (fun _ _ => 0) = some img ∧
    (gas_fill_super linux_dev (plain_host img) calm_env).result = .ok (v, root) ∧
    (mounted_fs v root).Fresh ∧ v.env = calm_env ∧ v.sbi = mkfs_sbi 1048576 ∧
    Roomy v 247 ∧ SpareInodes v 62 := by
  obtain ⟨img, hmk, himg⟩ := mkfs_megabyte
  have hok : offset_ok 4 := by decide
  have hlarge : 256 ≤ (filesys_param 1048576).blk_cnt := by decide
  have hhost := plain_host_holds img
  have hr : ¬Refused (plain_host img) calm_env :=
    himg.not_refused hok hlarge hhost (by simp [plain_host]) rfl rfl
  obtain ⟨v, root, hmount⟩ := (gas_fill_super_started linux_dev hr).served.mpr
    ⟨fun _ _ => rfl, rfl, rfl, rfl⟩
  obtain ⟨hb, hi, tick, rdev, hv, -⟩ := himg.mounted hok hlarge hhost hmount
  have henv : v.env = calm_env := by rw [hv]; rfl
  obtain ⟨hroom, hspare⟩ := (himg.shows hok hlarge hhost hmount).free (by decide)
    (fun n => by rw [henv]; rfl) fun n => by rw [henv]; rfl
  exact ⟨img, v, root, hmk, hmount,
    ⟨_, _, _, img, linux_dev, _, calm_env, v, root, hmk, hhost, hmount, rfl⟩, henv, by rw [hv]; rfl,
    hroom, hspare⟩

/-- A megabyte can be formatted and mounted, with 247 blocks and 62 inode numbers to spare. -/
theorem fresh_megabyte : ∃ d : Fs Nat, d.Fresh ∧ (∀ n, d.vol.env.pgread n = true) ∧
    Roomy d.vol 247 ∧ SpareInodes d.vol 62 ∧ d.isDir GAS_ROOT_INO = true ∧
    (d.inode GAS_ROOT_INO).slots = [some (dot, GAS_ROOT_INO), some (dotdot, GAS_ROOT_INO)] ∧
    (d.inode GAS_ROOT_INO).i_nlink = 2 := by
  obtain ⟨img, v, root, -, -, hfresh, -, -, hroom, hspare⟩ := mounted_megabyte
  obtain ⟨i, hone, -, hl, -, -, hslots, -, hdir⟩ := hfresh.only
  refine ⟨_, hfresh, hroom.pgread, hroom, hspare, (hdir _).mpr rfl, ?_, ?_⟩
  · rw [Fs.inode_of hone]
    exact hslots
  · rw [Fs.inode_of hone]
    exact hl

/-! ## 5. Directories made one in the other

A run of two calls, built for any predicate that admits them.  It is the concrete run of several
results below and elsewhere. -/

section Nested

variable {P : Fs Nat → NameOp → Prop} {d₀ d : Fs Nat} {dir p k m : Nat} {name : List UInt8}

/-- **The first name in a directory** can be that of another directory. -/
theorem NameRun.first_mkdir (hrun : NameRun P d₀ d) (hp : P d (.mkdir dir name 0)) (hc : d.Consistent)
    (hroom : Roomy d.vol (k + 2)) (hspare : SpareInodes d.vol (m + 1)) (hdir : d.isDir dir = true)
    (hslots : (d.inode dir).slots = [some (dot, dir), some (dotdot, p)])
    (hl : (d.inode dir).i_nlink = 2) (hn : IsName name) (hdot : name ≠ dot) (hdotdot : name ≠ dotdot) :
    ∃ d' x, NameRun P d₀ d' ∧ d'.Consistent ∧ Roomy d'.vol k ∧ SpareInodes d'.vol m ∧
      d'.LiveEntry dir 2 name x ∧ d.inodes x = none ∧ d'.isDir x = true ∧ Blank (d'.inode x) ∧
      (d'.inode x).slots = [some (dot, x), some (dotdot, dir)] ∧ (d'.inode x).i_nlink = 2 ∧
      ∀ j i, j ≠ dir → d.inodes j = some i → d'.inodes j = some i := by
  have habs : d.entry (dir, name) = none := by
    rw [Fs.entry_of_isDir hdir, hslots]
    simp only [lookup_cons_some, lookup_nil, if_neg hdot.symm, if_neg hdotdot.symm]
  have hhole : hole (d.inode dir).slots = 2 := by
    rw [hslots]
    rfl
  have hlinks : (d.inode dir).i_nlink.toNat < GAS_LINK_MAX := by
    rw [hl]
    decide
  have hallowed : (NameOp.mkdir dir name 0).Allowed d := ⟨⟨hn, hdir, habs⟩, rfl, hlinks⟩
  obtain ⟨d', x, hr, hroom', hspare', hput, hdir', hnone, hxdir, hblank, hxslots, hxl, hother⟩ :=
    gas_mkdir_runs hc hroom hspare (S_ISDIR_mkdir (show (0 : BitVec 16) &&& S_IFMT = 0 from rfl))
      hdir hn habs (by rw [hhole]; decide)
  have hslot : (d'.inode dir).slots[2]? = some (some (name, x)) := by
    rw [hput, getElem?_put, hhole, if_pos rfl]
  exact ⟨d', x, hrun.step _ hallowed hp hr, (hc.call_op hallowed trivial hr).1, hroom',
    hspare', ⟨hdir', hslot⟩, hnone, hxdir, hblank, hxslots, hxl, hother⟩

/-- **Two directories made one in the other**, `b` in `a`, on a new file system. -/
theorem nested_run (hp : ∀ d dir name, P d (.mkdir dir name 0)) :
    ∃ (d₀ d : Fs Nat) (x y : Nat), d₀.Fresh ∧ (∀ n, d₀.vol.env.pgread n = true) ∧ NameRun P d₀ d ∧ d.Consistent ∧
      Roomy d.vol 243 ∧ d.LiveEntry GAS_ROOT_INO 2 [97] x ∧ d.LiveEntry x 2 [98] y ∧
      d.isDir x = true ∧ d.isDir y = true ∧ x ≠ GAS_ROOT_INO ∧ y ≠ GAS_ROOT_INO ∧ y ≠ x := by
  have ha : IsName [97] := ⟨by decide, by decide, by decide⟩
  have hb : IsName [98] := ⟨by decide, by decide, by decide⟩
  obtain ⟨d₀, hfresh, hio, hroom, hspare, hroot, hslots, hl⟩ := fresh_megabyte
  obtain ⟨d1, x, hrun1, hc1, hroom1, hspare1, hlive1, hnone1, hx1, -, hxslots, hxl, -⟩ :=
    NameRun.start.first_mkdir (k := 245) (m := 61) (hp _ _ _) hfresh.consistent hroom hspare hroot
      hslots hl ha (by decide) (by decide)
  have hx : x ≠ GAS_ROOT_INO := by
    rintro rfl
    rw [Fs.isDir, hnone1] at hroot
    simp at hroot
  obtain ⟨d2, y, hrun2, hc2, hroom2, -, hlive2, hnone2, hy2, -, -, -, hother⟩ :=
    hrun1.first_mkdir (k := 243) (m := 60) (hp _ _ _) hc1 hroom1 hspare1 hx1 hxslots hxl hb
      (by decide) (by decide)
  have hy : ∀ j, d1.isDir j = true → y ≠ j := by
    rintro j hj rfl
    rw [Fs.isDir, hnone2] at hj
    simp at hj
  obtain ⟨i, hi⟩ := Fs.isDir_some hlive1.1
  have hi2 := hother _ i hx.symm hi
  have hroot2 : d2.LiveEntry GAS_ROOT_INO 2 [97] x := by
    obtain ⟨h1, h2⟩ := hlive1
    rw [Fs.isDir_of hi] at h1
    rw [Fs.inode_of hi] at h2
    refine ⟨(Fs.isDir_of hi2).trans h1, ?_⟩
    rw [Fs.inode_of hi2]
    exact h2
  exact ⟨d₀, d2, x, y, hfresh, hio, hrun2, hc2, hroom2, hroot2, hlive2, hlive2.1, hy2, hx,
    hy _ hlive1.1, hy _ hx1⟩

end Nested

/-! ## 6. Links and names along runs

The two results, each with a run that has a directory in a directory.  The third statement is the
run in which a page cannot be read. -/

/-- **Link counts are numbers of entries**: along every run on what `mkfs.gas` made, as long as
`gas_rmdir` removes none but deserted directories, whatever fails. -/
theorem links_exact_run {d₀ d : Fs Nat} (h₀ : d₀.Fresh)
    (hrun : NameRun (fun d op => op.Spares d) d₀ d) : d.LinksExact :=
  (hrun.consistent h₀.consistent).linksExact

/-- After two directories were made one in the other, the counts are exact. -/
theorem links_exact_nested : ∃ (d : Fs Nat) (x y : Nat), d.LiveEntry GAS_ROOT_INO 2 [97] x ∧
    d.LiveEntry x 2 [98] y ∧ d.LinksExact := by
  obtain ⟨d₀, d, x, y, hfresh, -, hrun, -, -, hx, hy, -⟩ :=
    nested_run (P := fun d op => op.Spares d) fun _ _ _ => trivial
  exact ⟨d, x, y, hx, hy, links_exact_run hfresh hrun⟩

/-- **A removed directory takes its names with it**, if no page of it can be read: `a` goes, and the
`.` of the directory `b` in it is all that is left of two links. -/
theorem links_not_exact : ¬∀ d₀ d : Fs Nat, d₀.Fresh → NameRun (fun _ _ => True) d₀ d → d.LinksExact := by
  intro hall
  obtain ⟨d₀, d, x, y, hfresh, -, hrun, hc, hroom, hlive, hlost, hx, -, hx1, hy1, hyx⟩ :=
    nested_run (P := fun _ _ => True) fun _ _ _ => trivial
  -- the next caller can read none of the pages of `a`
  let env : Env := { d.vol.env with
    pgread := fun n => decide (d.vol.tick + gas_dir_pages (d.inode x) ≤ n) }
  have hcall := hrun.step (.caller env) trivial trivial rfl
  have hc' := hc.caller env
  obtain ⟨i, hi⟩ := Fs.isDir_some hx
  have hmode : S_ISDIR (d.inode x).i_mode = true := by
    rw [Fs.isDir_of hi, Bool.and_eq_true] at hx
    rw [Fs.inode_of hi]
    exact hx.1
  have hold : OldName { d with vol := { d.vol with env := env } } GAS_ROOT_INO [97] x :=
    ⟨⟨by decide, by decide, by decide⟩, by decide, by decide, hlive.entry hc.named.dirs⟩
  have hok := gas_rmdir_unread hc'.named.dirs
    ⟨{ hroom.geometry.toGeometry with }, hroom.geometry.nblocks_le⟩ hroom.padded hroom.direct
    hroom.not_full hlive.1 hx hold.isName hlive.2 (by decide) fun _ => rfl
  have hrm := hcall.step (.rmdir GAS_ROOT_INO [97] x) ⟨hold, hmode⟩ trivial (Prod.ext rfl hok)
  exact hc'.rmdir_loses hold hmode (hlost.entry hc.named.dirs) hx1.symm hy1 hyx (Prod.ext rfl hok)
    (hall d₀ _ hfresh hrm)

/-- **The namespace is a tree.**  Along every run on what `mkfs.gas` made, as long as pages can be read,
each directory but the root has one name; its `..` holds the number of the directory of that name; and
following `..` from it leads to the root. -/
theorem namespace_is_tree {d₀ d : Fs Nat} (h₀ : d₀.Fresh) (hio : ∀ n, d₀.vol.env.pgread n = true)
    (hrun : NameRun (fun _ op => op.Reads) d₀ d) {k : Nat} (hk : d.isDir k = true)
    (hne : k ≠ GAS_ROOT_INO) :
    ∃ dir t name, d.LiveEntry dir t name k ∧ name ≠ dot ∧ name ≠ dotdot ∧
      (∀ dir' t' name', d.LiveEntry dir' t' name' k → name' ≠ dot → name' ≠ dotdot →
        dir' = dir ∧ t' = t) ∧
      (∃ s, ∀ s' x, d.LiveEntry k s' dotdot x ↔ s' = s ∧ x = dir) ∧
      Relation.ReflTransGen (fun x y => ∃ s, d.LiveEntry x s dotdot y) k GAS_ROOT_INO := by
  obtain ⟨hc, -⟩ := hrun.consistent_of_reads h₀.consistent hio
  have hdirs := hc.named.dirs
  obtain ⟨⟨dir, name⟩, ⟨hname, hdot, hdotdot⟩, hup, hone⟩ := hc.named.tree.named k hk hne
  obtain ⟨t, ht⟩ := exists_liveEntry hname
  obtain ⟨s, hs⟩ := exists_liveEntry (show d.entry (k, dotdot) = some dir from hup)
  refine ⟨dir, t, name, ht, hdot, hdotdot, fun dir' t' name' h' h1 h2 => ?_, ⟨s, fun s' x => ?_⟩, ?_⟩
  · obtain ⟨rfl, rfl⟩ := Prod.mk.inj (hone (dir', name') ⟨h'.entry hdirs, h1, h2⟩)
    exact ⟨rfl, ht.unique h' hdirs⟩
  · constructor
    · intro h'
      exact ⟨hs.unique h' hdirs,
        Option.some.inj ((h'.entry hdirs).symm.trans (hs.entry hdirs))⟩
    · rintro ⟨rfl, rfl⟩
      exact hs
  · exact Relation.ReflTransGen.mono (fun x y hxy => exists_liveEntry hxy) _ _
      (hc.named.tree.rooted k hk)

/-- And the inner one leads to the root. -/
theorem namespace_is_tree_nested : ∃ (d : Fs Nat) (y : Nat), d.isDir y = true ∧ y ≠ GAS_ROOT_INO ∧
    Relation.ReflTransGen (fun x y => ∃ s, d.LiveEntry x s dotdot y) y GAS_ROOT_INO := by
  obtain ⟨d₀, d, x, y, hfresh, hio, hrun, -, -, -, -, -, hy, -, hy1, -⟩ :=
    nested_run (P := fun _ op => op.Reads) fun _ _ _ => trivial
  obtain ⟨_, _, _, _, _, _, _, _, hup⟩ := namespace_is_tree hfresh hio hrun hy hy1
  exact ⟨d, y, hy, hy1, hup⟩

end GasFs
