/-
# What the calls do to the namespace

A successful call of `gas_namei.c` is one step of the namespace (`Namespace.Step`): a name bound,
freed or moved, a directory that comes or goes, with the link counts that belong to it.  Each call is
made of a few pieces, the change of one record, of one link count, a new inode.  The pieces are told
here by what they make of the space and by what they leave alone (`Fs.Frame`), and put together call by
call.

Inode numbers are right when every inode in core has its bit in the inode map set (`Fs.NumbersOk`): then
the number of a new inode is that of no other.

A call has two kinds of lemma.  `…_cases` lists its exits with what each of them leaves, for any
file system whose numbers are right; it is the only place where the call is unfolded.
`Fs.Consistent.…` is about a call that succeeded, and says which act of the namespace it was.

The space is read off the file system by `Fs.space`, so a step of the space is an equation between
two readings.  Most of the work is to show that the readings differ in the place of the act and
nowhere else.
-/
import GasFs.Namei.Fault
import GasFs.Namei.Space

namespace GasFs

open Bytes SlotTable Namespace

/-! ## 1. Numbers

The number of an inode is its key in the map of inodes in core, and its bit is set.  Number 0 is
marked and never given out. -/

/-- The inodes in core are held under their numbers, and their bits in the inode map are set.  So a
number whose bit is clear is that of no inode in core, and can be given out. -/
structure Fs.NumbersOk (d : Fs Nat) : Prop where
  geometry : Geometry d.vol
  limit : d.vol.inoLimit ≤ 4294967296
  zero : d.vol.inodeInUse 0 = true
  ino : ∀ k i, d.inodes k = some i →
    i.i_ino = k ∧ 0 < k ∧ k < 4294967296 ∧ d.vol.inodeInUse k = true

/-- The geometry belongs to the superblock, which nothing changes. -/
theorem SameVol.geometry {v v' : Vol} (h : SameVol v v') (hg : Geometry v) : Geometry v' := by
  obtain ⟨h1, h2, h3, h4, h5, h6, h7⟩ := hg
  constructor <;> simpa only [h.sbi, h.bits]

section Numbers

variable {d d' : Fs Nat}

/-- **Numbers stay right** as long as no inode comes or goes. -/
theorem Fs.NumbersOk.frame (h : d.NumbersOk) (hf : d.Frame d') : d'.NumbersOk where
  geometry := hf.vol.geometry h.geometry
  limit := by
    rw [Vol.inoLimit, hf.vol.sbi]
    exact h.limit
  zero := (hf.bits 0).trans h.zero
  ino k i hk := by
    obtain ⟨i', hk', he⟩ := hf.before hk
    obtain ⟨hino, hpos, hlt, hbit⟩ := h.ino k i' hk'
    exact ⟨(congrArg Prod.fst he).trans hino, hpos, hlt, (hf.bits k).trans hbit⟩

end Numbers

/-! ## 2. New inodes

`gas_new_inode` is the source of numbers.  What it returns is not in core yet; the calls fill in
type and links and then enter it under its number. -/

/-- The set-group-id bit is not part of the type. -/
theorem S_ISDIR_setgid (mode : BitVec 16) : S_ISDIR (mode ||| S_ISGID) = S_ISDIR mode := by
  have h : (mode ||| S_ISGID) &&& S_IFMT = mode &&& S_IFMT := by
    rw [BitVec.and_or_distrib_right]
    exact BitVec.or_zero
  rw [S_ISDIR, S_ISDIR, h]

/-- What `gas_new_inode` returns: an empty inode under a number that no inode in core has.  The type
and the owner are those `gas_new_inode` was asked for. -/
structure NewInode (d : Fs Nat) (mode : BitVec 16) (inode : Inode) (v : Vol) : Prop where
  absent : d.inodes inode.i_ino = none
  pos : 0 < inode.i_ino
  lt : inode.i_ino < 4294967296
  nlink : inode.i_nlink = 1
  isDir : S_ISDIR inode.i_mode = S_ISDIR mode
  dead : inode.dead = false
  size : inode.i_size = 0
  pages : ∀ n a, inode.pages n a = 0
  blkaddr : ∀ n, inode.blkaddr n = 0
  vol : SameVol d.vol v
  bits : ∀ j, v.inodeInUse j = if j = inode.i_ino then true else d.vol.inodeInUse j
  bam : v.bam = d.vol.bam

/-- `gas_new_inode` fails: there is no memory, or no number left. -/
def Fs.NoInode (d : Fs Nat) : Prop := d.vol.env.mem d.vol.tick = false ∨ d.vol.IamFull

section New

variable {d : Fs Nat} {mode : BitVec 16} {inode : Inode} {v : Vol} {c : Ctx}

/-- **`gas_new_inode` returns a new inode, or fails and changes nothing.** A failure costs one
request and nothing else. -/
theorem Fs.NumbersOk.new_inode (h : d.NumbersOk) (dir : Inode) (mode : BitVec 16) :
    (∃ inode v, gas_new_inode d.vol dir mode = (none, some inode, v) ∧ NewInode d mode inode v) ∨
    d.NoInode ∧ ∃ e,
      gas_new_inode d.vol dir mode = (some e, none, { d.vol with tick := d.vol.tick + 1 }) := by
  rcases gas_new_inode_cases h.geometry h.limit dir mode with
    ⟨ino, hint, he, hlt, hfree, -⟩ | ⟨e, he, hno⟩
  · refine Or.inl ⟨_, _, he, ?_⟩
    refine ⟨?_, ?_, hlt.trans_le h.limit, rfl, ?_, rfl, rfl, fun _ _ => rfl, fun _ => rfl,
      ⟨rfl, rfl, rfl⟩, fun j => write_bit_block d.vol.iam j ino true, rfl⟩
    · cases hk : d.inodes ino with
      | none => rfl
      | some i =>
        obtain ⟨-, -, -, hbit⟩ := h.ino ino i hk
        exact absurd (hfree.symm.trans hbit) (by simp)
    · refine Nat.pos_of_ne_zero fun hz => ?_
      obtain rfl : ino = 0 := hz
      exact absurd (hfree.symm.trans h.zero) (by simp)
    · simp only [inode_init_owner]
      split
      · exact S_ISDIR_setgid mode
      · rfl
  · exact Or.inr ⟨hno, e, he⟩

/-- The operation table and the device number do not matter. -/
theorem NewInode.set_inode (h : NewInode d mode inode v) (rdev : Nat) :
    NewInode d mode (gas_set_inode inode rdev) v := by
  obtain ⟨op, he⟩ := gas_set_inode_eq inode rdev
  rw [he]
  exact ⟨h.absent, h.pos, h.lt, h.nlink, h.isDir, h.dead, h.size, h.pages, h.blkaddr, h.vol, h.bits,
    h.bam⟩

/-- Before it is entered, its number is that of no directory. -/
theorem NewInode.isDir_false (h : NewInode d mode inode v) : d.isDir inode.i_ino = false := by
  rw [Fs.isDir, h.absent]

/-- The space with a new inode. -/
theorem Fs.space_put {k : Nat} (hk : d.inodes k = none) (c : Ctx) :
    (d.set k c).space = {
      nlink := Function.update d.space.nlink k (some c.inode.i_nlink.toNat)
      dirs := if S_ISDIR c.inode.i_mode && !c.inode.dead then insert k d.space.dirs
        else d.space.dirs
      entry := fun q => if q.1 = k then
          (if S_ISDIR c.inode.i_mode && !c.inode.dead then lookup c.inode.slots q.2 else none)
        else d.entry q } := by
  have hself : (d.set k c).isDir k = (S_ISDIR c.inode.i_mode && !c.inode.dead) :=
    Fs.isDir_of (Function.update_self k _ d.inodes)
  have hother : ∀ j, j ≠ k → (d.set k c).isDir j = d.isDir j := fun j hne => by
    simp only [Fs.isDir, Fs.set, Function.update_of_ne hne]
  have hnot : d.isDir k = false := by rw [Fs.isDir, hk]
  simp only [Fs.space, Space.mk.injEq]
  refine ⟨?_, ?_, ?_⟩
  · funext j
    rcases eq_or_ne j k with rfl | hne
    · simp only [Fs.set, Function.update_self, Option.map_some]
    · simp only [Fs.set, Function.update_of_ne hne]
  · ext j
    rcases eq_or_ne j k with rfl | hne
    · rw [Set.mem_ofPred_eq, hself]
      split
      · next h => exact iff_of_true h (Set.mem_insert j _)
      · next h =>
        refine iff_of_false h fun hm => ?_
        rw [Set.mem_ofPred_eq, hnot] at hm
        exact absurd hm (by simp)
    · rw [Set.mem_ofPred_eq, hother j hne]
      split
      · simp only [Set.mem_insert_iff, hne, false_or, Set.mem_ofPred_eq]
      · rfl
  · funext q
    by_cases hq : q.1 = k
    · rw [if_pos hq, Fs.entry, hq, hself, Fs.set_inode]
    · rw [if_neg hq, Fs.entry, Fs.entry, hother _ hq, Fs.set_inode_of_ne d hq]

/-- **Its number is right.** -/
theorem NewInode.numbers (h : NewInode d mode inode v) (hd : d.NumbersOk) (hv : BlockStep v c.v)
    (hino : c.inode.i_ino = inode.i_ino) : (d.set inode.i_ino c).NumbersOk where
  geometry := (h.vol.trans hv.sameVol).geometry hd.geometry
  limit := by
    rw [Vol.inoLimit, Fs.set_vol, (h.vol.trans hv.sameVol).sbi]
    exact hd.limit
  zero := by
    rw [Fs.set_vol, hv.inodeInUse, h.bits, if_neg h.pos.ne]
    exact hd.zero
  ino k i hk := by
    rw [Fs.set_vol, hv.inodeInUse, h.bits]
    rcases eq_or_ne k inode.i_ino with rfl | hne
    · obtain rfl := Option.some.inj ((Function.update_self _ _ d.inodes).symm.trans hk)
      exact ⟨hino, h.pos, h.lt, if_pos rfl⟩
    · obtain ⟨h1, h2, h3, h4⟩ := hd.ino k i ((Function.update_of_ne hne _ d.inodes).symm.trans hk)
      exact ⟨h1, h2, h3, by rw [if_neg hne, h4]⟩

/-- A new inode does not disturb the directories that are there. -/
theorem Fs.DirsOk.put {k : Nat} (h : d.DirsOk)
    (hok : (S_ISDIR c.inode.i_mode && !c.inode.dead) = true → DirOk c.inode ∧ Uniq c.inode.slots) :
    (d.set k c).DirsOk := by
  intro j hj
  rcases eq_or_ne j k with rfl | hne
  · rw [Fs.isDir_of (Function.update_self j _ d.inodes)] at hj
    rw [Fs.set_inode]
    exact hok hj
  · rw [Fs.set_inode_of_ne d hne]
    refine h j ?_
    simpa only [Fs.isDir, Fs.set, Function.update_of_ne hne] using hj

end New

/-! ## 3. Consistent file systems

The invariant of the namespace: numbers, a tree of directories (`Fs.Named`), and no links on what is
removed.  `Fs.Consistent.did` is how it is re-established: from a step of the space and the parts of
the new state that the space does not show. -/

/-- What is removed has no links. -/
def Fs.DeadOk (d : Fs Nat) : Prop := ∀ k i, d.inodes k = some i → i.dead = true → i.i_nlink = 0

/-- Right numbers, and a tree of well-formed directories with exact link counts.  All that a call of
`gas_namei.c` relies on is in it. -/
structure Fs.Consistent (d : Fs Nat) : Prop where
  numbers : d.NumbersOk
  named : d.Named

/-- A call that did what was asked of the namespace.  The volume keeps its superblock and its
kernel. -/
structure Fs.Did (d : Fs Nat) (a : Act Nat (List UInt8)) (d' : Fs Nat) : Prop where
  consistent : d'.Consistent
  vol : SameVol d.vol d'.vol
  does : Does dot dotdot d.space a d'.space

section Consistent

variable {d d' : Fs Nat} {dir x k : Nat} {name : List UInt8} {i i' : Inode} {c : Ctx}
  {a : Act Nat (List UInt8)}

/-- **A step of the namespace** leaves a consistent file system.  The act is a step of the
namespace, so what the namespace keeps is kept. -/
theorem Fs.Consistent.did (h : d.Consistent) (hnum : d'.NumbersOk) (hdirs : d'.DirsOk)
    (hdead : d'.DeadOk) (hv : SameVol d.vol d'.vol) (hs : Does dot dotdot d.space a d'.space) :
    d.Did a d' where
  consistent :=
    { numbers := hnum
      named :=
        { ino := fun k i hk => ⟨(hnum.ino k i hk).1, (hnum.ino k i hk).2.2.1⟩
          dead := hdead
          dirs := hdirs
          tree := h.named.tree.step (by decide) (hs.step h.named.tree) } }
  vol := hv
  does := hs

/-- What has no links gets none. -/
theorem Fs.Frame.dead (hf : d.Frame d') (hd : d.DeadOk)
    (hn : ∀ k, d.space.nlink k = some 0 → d'.space.nlink k = some 0) : d'.DeadOk := by
  intro k i' hk' hdead
  obtain ⟨i, hk, he⟩ := hf.before hk'
  have hi : i.dead = true := ((congrArg (·.2.2) he).symm.trans hdead : i.dead = true)
  have h0 := hn k (by rw [Fs.nlink_of hk, hd k i hk hi]; rfl)
  rw [Fs.nlink_of hk'] at h0
  exact BitVec.eq_of_toNat_eq (Option.some.inj h0)

/-- The links of one inode change, and it keeps some or had some. -/
theorem update_unlinked {nlink : Nat → Option Nat} {n : Nat} {o : Option Nat}
    (hx : nlink x = some (n + 1)) (hk : nlink k = some 0) : Function.update nlink x o k = some 0 := by
  rw [Function.update_of_ne, hk]
  rintro rfl
  rw [hx] at hk
  simp at hk

/-- **A name bound** to what is no directory. -/
theorem Fs.Consistent.bind {d1 : Fs Nat} (h : d.Consistent) (hnum : d1.NumbersOk)
    (hdirs : d1.DirsOk) (hdead : d1.DeadOk)
    (hspace : d1.space = { d.space with
      nlink := Function.update d.space.nlink x (some ((d.space.nlink x).getD 0 + 1)) })
    (hdir : d.isDir dir = true) (hn : IsName name) (habs : d.entry (dir, name) = none)
    (ha : Does dot dotdot d.space a (d.space.bound dir name x)) (hx1 : ∃ i, d1.inodes x = some i)
    (hv : SameVol d.vol d1.vol) (hr : gas_add_link (d1.ctx dir) name x = (c, none)) :
    d.Did a (d1.set dir c) := by
  have hdir1 : d1.isDir dir = true := by
    have hmem : dir ∈ d1.space.dirs := by rw [hspace]; exact hdir
    exact hmem
  have habs1 : d1.entry (dir, name) = none := by
    have he : d1.space.entry (dir, name) = none := by rw [hspace]; exact habs
    exact he
  obtain ⟨i, hi⟩ := hx1
  obtain ⟨-, hpos, hlt, -⟩ := hnum.ino x i hi
  obtain ⟨hframe, hkeeps, hout⟩ := hdirs.add_link hdir1 hn habs1 hpos hlt
  rw [hr] at hframe hkeeps hout
  obtain ⟨e, he, -⟩ | ⟨-, hsp⟩ := hout
  · simp at he
  · refine h.did (hnum.frame hframe) hkeeps.dirs (hframe.dead hdead fun k hk => ?_)
      (hv.trans hframe.vol) ?_
    · rw [hsp]
      exact hk
    · have hentry : d1.entry = d.entry := congrArg Space.entry hspace
      rw [hsp, hspace, hentry]
      exact ha

end Consistent

/-! ## 4. New names

`gas_mknod`, `gas_create`, `gas_symlink` and `gas_link` bind a name to a file.  The first three make
the file, which then has one link and no name; to bind the name makes the count exact again. -/

section NewNames

variable {d d' : Fs Nat} {dir x : Nat} {name : List UInt8} {mode : BitVec 16} {inode : Inode} {v : Vol}
  {c : Ctx}

/-- A new inode is another one than the directory. -/
theorem NewInode.ne (h : NewInode d mode inode v) (hdir : d.isDir dir = true) :
    dir ≠ inode.i_ino := by
  rintro rfl
  exact absurd (h.isDir_false.symm.trans hdir) (by simp)

/-- The new inode before anything was written to it. -/
theorem Fs.set_set (d : Fs Nat) (k : Nat) (c c' : Ctx) : (d.set k c).set k c' = d.set k c' := by
  simp only [Fs.set, Function.update_idem]

theorem Fs.DeadOk.put (h : d.DeadOk) {k : Nat} (hc : c.inode.dead = false) :
    (d.set k c).DeadOk := by
  intro j i hj hdead
  rcases eq_or_ne j k with rfl | hne
  · obtain rfl := Option.some.inj ((Function.update_self _ _ d.inodes).symm.trans hj)
    exact absurd (hc.symm.trans hdead) (by simp)
  · exact h j i ((Function.update_of_ne hne _ d.inodes).symm.trans hj) hdead

/-- A new inode that is no directory has one link, and no name yet. -/
theorem NewInode.space_file (h : NewInode d mode inode v) (hmode : S_ISDIR mode = false)
    (hi : c.inode.i_mode = inode.i_mode) (hl : c.inode.i_nlink = inode.i_nlink) :
    (d.set inode.i_ino c).space = { d.space with
      nlink := Function.update d.space.nlink inode.i_ino
        (some ((d.space.nlink inode.i_ino).getD 0 + 1)) } := by
  have hfile : (S_ISDIR c.inode.i_mode && !c.inode.dead) = false := by
    rw [hi, h.isDir, hmode, Bool.false_and]
  have hnone : d.space.nlink inode.i_ino = none := by
    simp only [Fs.space, h.absent, Option.map_none]
  rw [Fs.space_put h.absent, hfile, hl, h.nlink, hnone]
  simp only [Bool.false_eq_true, if_false, Space.mk.injEq, true_and]
  refine ⟨rfl, funext fun q => ?_⟩
  split
  · next hq =>
    have hnot := h.isDir_false
    rw [← hq] at hnot
    simp only [Fs.space, Fs.entry, hnot, Bool.false_eq_true, if_false]
  · rfl

/-- **A name for a new file.** -/
theorem Fs.Consistent.bind_new (h : d.Consistent) (hnew : NewInode d mode inode v)
    (hmode : S_ISDIR mode = false) (hv : BlockStep v c.v) (hs : DirStep inode c.inode)
    (hdir : d.isDir dir = true) (hn : IsName name) (habs : d.entry (dir, name) = none) {c' : Ctx}
    (hr : gas_add_link ((d.set inode.i_ino c).ctx dir) name inode.i_ino = (c', none)) :
    d.Did (.create dir name) ((d.set inode.i_ino c).set dir c') := by
  obtain ⟨hino, himode, hl, hdead⟩ := hs.fields
  have hdirs : (d.set inode.i_ino c).DirsOk := h.named.dirs.put fun hd => by
    rw [himode, hnew.isDir, hmode] at hd
    simp at hd
  have hnone : d.space.nlink inode.i_ino = none := by
    simp only [Fs.space, hnew.absent, Option.map_none]
  exact h.bind (hnew.numbers h.numbers hv hino) hdirs
    (Fs.DeadOk.put h.named.dead (hdead.trans hnew.dead)) (hnew.space_file hmode himode hl) hdir hn habs
    (.create hdir habs hnone) ⟨c.inode, Function.update_self _ _ _⟩ (hnew.vol.trans hv.sameVol) hr

/-- An inode that is not changed. -/
theorem DirStep.refl (i : Inode) : DirStep i i := ⟨_, _, _, _, _, rfl⟩

/-- `add_nondir` leaves an inode with links in core, whether it enters it or not. -/
theorem add_nondir_eq {k : Nat} (hne : k ≠ dir) (hl : (d.inode k).i_nlink ≠ 0) (name : List UInt8)
    (last : Bool) : add_nondir d dir name k last =
      (d.set dir (gas_add_link (d.ctx dir) name (d.inode k).i_ino).1,
        (gas_add_link (d.ctx dir) name (d.inode k).i_ino).2) := by
  unfold add_nondir
  generalize gas_add_link (d.ctx dir) name (d.inode k).i_ino = r
  obtain ⟨c, _ | e⟩ := r
  · rfl
  · have hlink : ((d.set dir c).inode k).i_nlink ≠ 0 := by
      rw [Fs.set_inode_of_ne _ hne]
      exact hl
    simp only [Fs.iput, if_neg hlink, ite_self]

/-- **`gas_mknod` and `gas_create`**: no inode, or a new one that is entered or stays without a
name.  In the second case the inode stays in core with its one link even if it could not be
entered. -/
theorem new_nondir_cases (h : d.NumbersOk) (hdir : d.isDir dir = true) (name : List UInt8)
    (mode : BitVec 16) (rdev : Nat) :
    (d.NoInode ∧ ∃ e, new_nondir d dir name mode rdev =
      ({ d with vol := { d.vol with tick := d.vol.tick + 1 } }, some e)) ∨
    ∃ inode v, NewInode d mode inode v ∧ new_nondir d dir name mode rdev =
      (let d1 := d.set inode.i_ino ⟨v, inode, 0⟩
       let r := gas_add_link (d1.ctx dir) name inode.i_ino
       (d1.set dir r.1, r.2)) := by
  unfold new_nondir
  rcases h.new_inode (d.inode dir) mode with ⟨inode, v, he, hnew⟩ | ⟨hno, e, he⟩
  · rw [he]
    have hnew' := hnew.set_inode rdev
    have hino := (gas_set_inode_fields inode rdev).1
    refine Or.inr ⟨_, _, hnew', ?_⟩
    dsimp only
    rw [← hino]
    generalize gas_set_inode inode rdev = i at hnew'
    have hash : Fs.hash { d with vol := v } i = d.set i.i_ino ⟨v, i, 0⟩ := rfl
    rw [hash, add_nondir_eq (hnew'.ne hdir).symm, Fs.set_inode]
    rw [Fs.set_inode, hnew'.nlink]
    decide
  · rw [he]
    exact Or.inl ⟨hno, e, rfl⟩

/-- A successful call binds the name. -/
theorem Fs.Consistent.new_nondir (h : d.Consistent) {rdev : Nat} (hmode : S_ISDIR mode = false)
    (hdir : d.isDir dir = true) (hn : IsName name) (habs : d.entry (dir, name) = none)
    (hr : GasFs.new_nondir d dir name mode rdev = (d', none)) : d.Did (.create dir name) d' := by
  rcases new_nondir_cases h.numbers hdir name mode rdev with ⟨-, e, he⟩ | ⟨inode, v, hnew, he⟩
  · rw [he] at hr
    simp at hr
  · rw [he] at hr
    obtain ⟨hc, ho⟩ := Prod.mk.inj hr
    rw [← hc]
    exact h.bind_new hnew hmode (BlockStep.refl v) (DirStep.refl inode) hdir hn habs
      (Prod.ext rfl ho)

/-- A change of pages, pointers and times. -/
theorem InodeStep.dirStep {i i' : Inode} (h : InodeStep i i') : DirStep i i' := by
  obtain ⟨blkaddr, pages, mtime, ctime, rfl⟩ := h
  exact ⟨i.i_size, blkaddr, pages, mtime, ctime, rfl⟩

/-- What a failed write leaves behind is cut off. -/
theorem gas_write_failed_step (c : Ctx) (to_ : Nat) : BlockStep c.v (gas_write_failed c to_).v ∧
    DirStep c.inode (gas_write_failed c to_).inode := by
  unfold gas_write_failed
  split
  · have hcut := gas_truncate_treeStep { c with inode := truncate_pagecache c.inode c.inode.i_size }
    have hcache : InodeStep c.inode (truncate_pagecache c.inode c.inode.i_size) := ⟨_, _, _, _, rfl⟩
    exact ⟨hcut.vol, (hcache.trans hcut.inode).dirStep⟩
  · exact ⟨BlockStep.refl _, DirStep.refl _⟩

/-- A write changes blocks and the pointers of its inode. -/
theorem gas_write_begin_step (c : Ctx) (pos len : Nat) :
    BlockStep c.v (gas_write_begin c pos len).1.v ∧
      DirStep c.inode (gas_write_begin c pos len).1.inode := by
  have hbegin : BlockStep c.v (block_write_begin c pos len).1.v ∧
      DirStep c.inode (block_write_begin c pos len).1.inode := by
    have hmap := block_write_begin_mapStep { c with v := { c.v with tick := c.v.tick + 1 } } pos len
      false
    have htick : BlockStep c.v { c.v with tick := c.v.tick + 1 } := ⟨_, _, _, _, rfl⟩
    unfold block_write_begin
    dsimp only
    split
    · exact ⟨htick, DirStep.refl _⟩
    · exact ⟨htick.trans hmap.1, hmap.dirStep⟩
  unfold gas_write_begin
  generalize block_write_begin c pos len = r at hbegin
  obtain ⟨c1, _ | e⟩ := r
  · exact hbegin
  · obtain ⟨hv, hs⟩ := gas_write_failed_step c1 (pos + len)
    exact ⟨hbegin.1.trans hv, hbegin.2.trans hs⟩

/-- The body of a symbolic link is written to its inode alone. -/
theorem page_symlink_step (c : Ctx) (symname : List UInt8) :
    BlockStep c.v (page_symlink c symname).1.v ∧ DirStep c.inode (page_symlink c symname).1.inode := by
  have hbegin := gas_write_begin_step c 0 symname.length
  unfold page_symlink
  generalize gas_write_begin c 0 symname.length = r at hbegin
  obtain ⟨c1, _ | e⟩ := r
  · obtain ⟨hv, hs⟩ := hbegin
    simp only [gas_write_end, Nat.lt_irrefl, false_and, if_false]
    split
    · exact ⟨hv, hs.trans ⟨_, _, _, _, _, rfl⟩⟩
    · exact ⟨hv, hs.trans ⟨_, _, _, _, _, rfl⟩⟩
  · exact hbegin

/-- **`gas_symlink`**: no inode, or a new one that cannot be written and goes away again, or one that
is entered or stays without a name. -/
theorem gas_symlink_cases (h : d.NumbersOk) (hdir : d.isDir dir = true) (name symname : List UInt8) :
    (∃ e v, (v = d.vol ∨ v = { d.vol with tick := d.vol.tick + 1 }) ∧
      gas_symlink d dir name symname = ({ d with vol := v }, some e)) ∨
    ∃ inode v, NewInode d (S_IFLNK ||| 0o777#16) inode v ∧
      (∀ c e, page_symlink ⟨v, inode, 0⟩ symname = (c, some e) →
        gas_symlink d dir name symname = (((d.set inode.i_ino c).modify inode.i_ino
          inode_dec_link_count).iput inode.i_ino, some e)) ∧
      ∀ c, page_symlink ⟨v, inode, 0⟩ symname = (c, none) →
        gas_symlink d dir name symname =
          ((d.set inode.i_ino c).set dir
              (gas_add_link ((d.set inode.i_ino c).ctx dir) name inode.i_ino).1,
            (gas_add_link ((d.set inode.i_ino c).ctx dir) name inode.i_ino).2) := by
  unfold gas_symlink
  by_cases hlen : d.vol.sbi.s_blocksize < symname.length + 1
  · rw [if_pos hlen]
    exact Or.inl ⟨_, d.vol, Or.inl rfl, rfl⟩
  · rw [if_neg hlen]
    rcases h.new_inode (d.inode dir) (S_IFLNK ||| 0o777#16) with
      ⟨inode, v, he, hnew⟩ | ⟨-, e, he⟩
    · rw [he]
      have hino := (gas_set_inode_fields inode 0).1
      have hnew' := hnew.set_inode 0
      refine Or.inr ⟨_, _, hnew', ?_⟩
      dsimp only
      rw [← hino]
      generalize gas_set_inode inode 0 = i at hnew'
      have hash : Fs.hash { d with vol := v } i = d.set i.i_ino ⟨v, i, 0⟩ := rfl
      have hctx : (d.set i.i_ino ⟨v, i, 0⟩).ctx i.i_ino = ⟨v, i, 0⟩ := by
        rw [Fs.ctx, Fs.set_inode, Fs.set_vol]
      rw [hash, hctx]
      refine ⟨fun c e hp => ?_, fun c hp => ?_⟩
      · rw [hp]
        dsimp only
        rw [Fs.set_set]
      · obtain ⟨-, hs⟩ := page_symlink_step ⟨v, i, 0⟩ symname
        rw [hp] at hs ⊢
        dsimp only
        rw [Fs.set_set, add_nondir_eq (hnew'.ne hdir).symm, Fs.set_inode, hs.fields.1]
        rw [Fs.set_inode, hs.fields.2.2.1, hnew'.nlink]
        decide
    · rw [he]
      exact Or.inl ⟨e, _, Or.inr rfl, rfl⟩

/-- **`gas_symlink`** binds the name, once the body is written. -/
theorem Fs.Consistent.symlink (h : d.Consistent) {symname : List UInt8}
    (hdir : d.isDir dir = true) (hn : IsName name) (habs : d.entry (dir, name) = none)
    (hr : gas_symlink d dir name symname = (d', none)) : d.Did (.create dir name) d' := by
  rcases gas_symlink_cases h.numbers hdir name symname with
    ⟨e, v, -, he⟩ | ⟨inode, v, hnew, herr, hok⟩
  · rw [he] at hr
    simp at hr
  · obtain ⟨hv, hs⟩ := page_symlink_step ⟨v, inode, 0⟩ symname
    generalize page_symlink ⟨v, inode, 0⟩ symname = r at herr hok hv hs
    obtain ⟨c, _ | e⟩ := r
    · rw [hok c rfl] at hr
      obtain ⟨hc, ho⟩ := Prod.mk.inj hr
      rw [← hc]
      exact h.bind_new hnew (by decide) hv hs hdir hn habs (Prod.ext rfl ho)
    · rw [herr c e rfl] at hr
      simp at hr

/-- A count below the bound goes up by one. -/
theorem toNat_inc {i : Inode} (h : i.i_nlink.toNat < 32000) :
    (inode_inc_link_count i).i_nlink.toNat = i.i_nlink.toNat + 1 := by
  have he : (inode_inc_link_count i).i_nlink = i.i_nlink + 1 := rfl
  have h1 : (1 : BitVec 32).toNat = 1 := rfl
  rw [he, BitVec.toNat_add, h1]
  omega

/-- **`gas_link`** binds another name to a file. -/
theorem Fs.Consistent.link (h : d.Consistent) {q : Nat × List UInt8} (hq : d.entry q = some x)
    (hmode : S_ISDIR (d.inode x).i_mode = false) (hlinks : (d.inode x).i_nlink.toNat < 32000)
    (hdir : d.isDir dir = true) (hn : IsName name) (habs : d.entry (dir, name) = none)
    (hr : gas_link d x dir name = (d', none)) : d.Did (.link x dir name) d' := by
  obtain ⟨i, hi⟩ := h.named.used hq
  obtain ⟨n, hused⟩ := h.named.tree.used hq
  rw [Fs.inode_of hi] at hlinks hmode
  have hf := inc_linkStep.comp (ctime_linkStep d.vol.now)
  have hframe := Fs.frame_modify hi hf
  have hspace := Fs.space_modify hi hf
  have hkeeps := h.named.dirs.keeps_modify hi hf
  have hfile : x ∉ d.space.dirs := by
    simp only [Fs.space, Set.mem_ofPred_eq, Fs.isDir_of hi, hmode, Bool.false_and, Bool.false_eq_true,
      not_false_eq_true]
  have hinc : ((inode_inc_link_count ∘ fun i => { i with i_ctime := d.vol.now }) i).i_nlink.toNat =
      i.i_nlink.toNat + 1 := toNat_inc (i := { i with i_ctime := d.vol.now }) hlinks
  rw [hinc] at hspace
  have hused' : d.space.nlink x = some (n + 1) := hused
  unfold gas_link add_nondir at hr
  dsimp only at hr
  rw [Fs.modify_modify] at hr
  obtain ⟨i1, hi1, hkind⟩ := hframe.after hi
  have hino : ((d.modify x (inode_inc_link_count ∘ fun i => { i with i_ctime := d.vol.now })).inode
      x).i_ino = x := by
    rw [Fs.inode_of hi1]
    exact ((h.numbers.frame hframe).ino x i1 hi1).1
  rw [hino] at hr
  generalize d.modify x (inode_inc_link_count ∘ fun i => { i with i_ctime := d.vol.now }) = d1 at *
  generalize hl : gas_add_link (d1.ctx dir) name x = r at hr
  obtain ⟨c, _ | e⟩ := r
  · obtain ⟨rfl, -⟩ := Prod.mk.inj hr
    exact h.bind (h.numbers.frame hframe) hkeeps.dirs
      (hframe.dead h.named.dead fun k hk => by rw [hspace]; exact update_unlinked hused' hk)
      (by rw [hspace, Fs.nlink_of hi]; rfl) hdir hn habs (.link hdir habs hfile hq) ⟨i1, hi1⟩ hframe.vol hl
  · simp at hr

end NewNames

/-! ## 5. New directories

`gas_mkdir` is two steps of the space in one: the new directory with its own two entries, and its
name in the parent.  The link that `..` adds to the parent is counted first and taken back at each
exit that fails. -/

section NewDirectories

variable {d d' : Fs Nat} {dir : Nat} {name : List UInt8} {mode : BitVec 16} {c : Ctx}

/-- The entries of a new directory change its own blocks. -/
theorem gas_make_empty_blockStep (c : Ctx) (dir : Nat) : BlockStep c.v (gas_make_empty c dir).1.v := by
  have hmap := block_write_begin_mapStep { c with v := { c.v with tick := c.v.tick + 1 } } 0
    (2 * sizeof_gas_dir_entry) false
  have htick : BlockStep c.v { c.v with tick := c.v.tick + 1 } := ⟨_, _, _, _, rfl⟩
  unfold gas_make_empty
  dsimp only
  split
  · exact htick
  · generalize __block_write_begin { c with v := { c.v with tick := c.v.tick + 1 } } 0
      (2 * sizeof_gas_dir_entry) false = r at hmap
    obtain ⟨c1, _ | e⟩ := r
    · dsimp only at hmap ⊢
      rw [gas_dir_commit_chunk_eq]
      exact htick.trans hmap.1
    · exact htick.trans hmap.1

/-- The table of a new directory. -/
theorem two_entries {k p : Nat} (hk : 0 < k) (hk' : k < 4294967296) (hp : 0 < p)
    (hp' : p < 4294967296) :
    [entryOf dot k, entryOf dotdot p] = [some (dot, k), some (dotdot, p)] ∧
      Uniq [some (dot, k), some (dotdot, p)] ∧
      ∀ l, lookup [some (dot, k), some (dotdot, p)] l =
        if l = dot then some k else if l = dotdot then some p else none := by
  refine ⟨?_, ?_, fun l => ?_⟩
  · rw [entryOf, entryOf, u32_of_lt hk', u32_of_lt hp', if_neg hk.ne', if_neg hp.ne']
  · simp [Uniq, live, dot, dotdot]
  · simp only [lookup_cons_some, lookup_nil, eq_comm]

/-- The link count and the operation table are set independently. -/
theorem gas_set_inode_inc (inode : Inode) (rdev : Nat) :
    gas_set_inode (inode_inc_link_count inode) rdev =
      inode_inc_link_count (gas_set_inode inode rdev) := by
  unfold gas_set_inode inode_inc_link_count
  dsimp only
  split_ifs <;> rfl

/-- A link counted and taken back leaves no trace. -/
theorem Fs.modify_inc_dec {i : Inode} (hi : d.inodes dir = some i) :
    (d.modify dir inode_inc_link_count).modify dir inode_dec_link_count = d := by
  have hi' : inode_dec_link_count (inode_inc_link_count i) = i := by
    simp only [inode_dec_link_count, inode_inc_link_count, BitVec.add_sub_cancel]
  rw [Fs.modify_modify, Fs.modify, Fs.inode_of hi, Function.comp_apply, hi', ← hi,
    Function.update_eq_self]

/-- **`gas_mkdir`**: no inode, and the link is taken back; or a new one, in which a directory cannot
be made, or that cannot be entered, or is.  The four exits are those of the source: no inode,
`gas_make_empty` fails, `gas_add_link` fails, or neither. -/
theorem gas_mkdir_cases (h : d.NumbersOk) (hdir : d.isDir dir = true) (name : List UInt8)
    (mode : BitVec 16) :
    (d.NoInode ∧ ∃ e, gas_mkdir d dir name mode =
      ({ d with vol := { d.vol with tick := d.vol.tick + 1 } }, some e)) ∨
    ∃ d0 inode v, d0 = d.modify dir inode_inc_link_count ∧
      NewInode d0 (S_IFDIR ||| mode) inode v ∧
      (∀ c e, gas_make_empty ⟨v, inode_inc_link_count inode, 0⟩ dir = (c, some e) →
        gas_mkdir d dir name mode =
          (mkdir_fail (d0.set inode.i_ino c) dir inode.i_ino, some e)) ∧
      ∀ c, gas_make_empty ⟨v, inode_inc_link_count inode, 0⟩ dir = (c, none) →
        (∀ c' e, gas_add_link ((d0.set inode.i_ino c).ctx dir) name c.inode.i_ino = (c', some e) →
          gas_mkdir d dir name mode =
            (mkdir_fail ((d0.set inode.i_ino c).set dir c') dir inode.i_ino, some e)) ∧
        ∀ c', gas_add_link ((d0.set inode.i_ino c).ctx dir) name c.inode.i_ino = (c', none) →
          gas_mkdir d dir name mode = ((d0.set inode.i_ino c).set dir c', none) := by
  obtain ⟨i, hi⟩ := Fs.isDir_some hdir
  have hframe := Fs.frame_modify hi inc_linkStep
  have hback := Fs.modify_inc_dec hi
  obtain ⟨i0, hi0, -⟩ := hframe.after hi
  have h0 := h.frame hframe
  have hvol : (d.modify dir inode_inc_link_count).vol = d.vol := rfl
  unfold gas_mkdir
  generalize d.modify dir inode_inc_link_count = d0 at *
  have hino : (d0.inode dir).i_ino = dir := by
    rw [Fs.inode_of hi0]
    exact (h0.ino dir i0 hi0).1
  dsimp only
  rcases h0.new_inode (d0.inode dir) (S_IFDIR ||| mode) with ⟨inode, v, he, hnew⟩ | ⟨hno, e, he⟩
  · rw [he]
    have hset := (gas_set_inode_fields inode 0).1
    have hnew' := hnew.set_inode 0
    refine Or.inr ⟨d0, gas_set_inode inode 0, v, rfl, hnew', ?_⟩
    dsimp only
    rw [gas_set_inode_inc, ← hset]
    generalize gas_set_inode inode 0 = i at hnew'
    have hash : Fs.hash { d0 with vol := v } (inode_inc_link_count i) =
      d0.set i.i_ino ⟨v, inode_inc_link_count i, 0⟩ := rfl
    have hctx : (d0.set i.i_ino ⟨v, inode_inc_link_count i, 0⟩).ctx i.i_ino =
        ⟨v, inode_inc_link_count i, 0⟩ := by
      rw [Fs.ctx, Fs.set_inode, Fs.set_vol]
    have hne : dir ≠ i.i_ino := by
      rintro rfl
      rw [hnew'.absent] at hi0
      simp at hi0
    rw [hash, hctx, Fs.set_inode_of_ne d0 hne, hino]
    refine ⟨fun c e hm => ?_, fun c hm => ⟨fun c' e hl => ?_, fun c' hl => ?_⟩⟩
    · rw [hm]
      dsimp only
      rw [Fs.set_set]
    · rw [hm]
      dsimp only
      rw [Fs.set_set, Fs.set_inode, hl]
    · rw [hm]
      dsimp only
      rw [Fs.set_set, Fs.set_inode, hl]
  · rw [he]
    rw [Fs.NoInode, hvol] at hno
    refine Or.inl ⟨hno, e, ?_⟩
    have hv : ({ d0 with vol := { d0.vol with tick := d0.vol.tick + 1 } } : Fs Nat).modify dir
        inode_dec_link_count =
        { d0.modify dir inode_dec_link_count with vol := { d0.vol with tick := d0.vol.tick + 1 } } := rfl
    dsimp only
    rw [hv, hback, hvol]

/-- **An empty directory** made in a new inode. -/
theorem NewInode.make_empty {inode : Inode} {v : Vol} (h : NewInode d mode inode v)
    (hmode : S_ISDIR mode = true) (hpos : 0 < dir) (hlt : dir < 4294967296)
    (hm : gas_make_empty ⟨v, inode_inc_link_count inode, 0⟩ dir = (c, none)) :
    BlockStep v c.v ∧ c.inode.i_ino = inode.i_ino ∧ c.inode.i_nlink = 2 ∧ c.inode.dead = false ∧
      S_ISDIR c.inode.i_mode = true ∧ DirOk c.inode ∧ Blank c.inode ∧
      c.inode.slots = [some (dot, inode.i_ino), some (dotdot, dir)] := by
  have hv := gas_make_empty_blockStep ⟨v, inode_inc_link_count inode, 0⟩ dir
  obtain ⟨hs, hout⟩ := gas_make_empty_spec (c := ⟨v, inode_inc_link_count inode, 0⟩)
    (show (inode_inc_link_count inode).i_size = 0 from h.size)
    (fun n a _ _ => show (inode_inc_link_count inode).pages n a = 0 from h.pages n a) dir
  rw [hm] at hv hs hout
  obtain ⟨hino, himode, hl, hdead⟩ := hs.fields
  obtain ⟨e, he, -⟩ | ⟨-, hok, hblank, hslots⟩ := hout
  · simp at he
  · refine ⟨hv, hino, ?_, hdead.trans h.dead, ?_, hok, hblank, ?_⟩
    · rw [hl, inode_inc_link_count, h.nlink]
      rfl
    · rw [himode, inode_inc_link_count, h.isDir, hmode]
    · exact hslots.trans (two_entries h.pos h.lt hpos hlt).1

/-- **A new directory that has no name yet.** -/
theorem NewInode.directory {inode : Inode} {v : Vol} (h : NewInode d mode inode v)
    (hnum : d.NumbersOk) (hdirs : d.DirsOk) (hmode : S_ISDIR mode = true) (hdir : d.isDir dir = true)
    (hm : gas_make_empty ⟨v, inode_inc_link_count inode, 0⟩ dir = (c, none)) :
    let d1 := d.set inode.i_ino c
    d1.NumbersOk ∧ d1.DirsOk ∧ (d.DeadOk → d1.DeadOk) ∧ SameVol d.vol d1.vol ∧
      c.inode.i_ino = inode.i_ino ∧
      c.inode.slots = [some (dot, inode.i_ino), some (dotdot, dir)] ∧ d1.space = {
        nlink := Function.update d.space.nlink inode.i_ino (some 2)
        dirs := insert inode.i_ino d.space.dirs
        entry := fun q => if q.1 = inode.i_ino then
          (if q.2 = dot then some inode.i_ino else if q.2 = dotdot then some dir else none)
          else d.entry q } := by
  obtain ⟨i, hi⟩ := Fs.isDir_some hdir
  obtain ⟨-, hpos, hlt, -⟩ := hnum.ino dir i hi
  obtain ⟨hv, hino, hl, hdead, himode, hdok, -, hslots⟩ := h.make_empty hmode hpos hlt hm
  obtain ⟨-, huniq, hlook⟩ := two_entries h.pos h.lt hpos hlt
  have hspace := Fs.space_put h.absent c
  simp only [himode, hdead, Bool.not_false, Bool.and_true, if_true, hl, hslots, hlook] at hspace
  exact ⟨h.numbers hnum hv hino, hdirs.put fun _ => ⟨hdok, by rw [hslots]; exact huniq⟩,
    fun hd => hd.put hdead, h.vol.trans hv.sameVol, hino, hslots, hspace⟩

/-- The entries of a new directory, and its own, entered one by one. -/
theorem update_new_directory {E : Nat × List UInt8 → Option Nat} {k p : Nat}
    (hk : ∀ l, E (k, l) = none) (q : Nat × List UInt8) :
    (if q.1 = k then (if q.2 = dot then some k else if q.2 = dotdot then some p else none) else E q) =
      Function.update (Function.update E (k, dot) (some k)) (k, dotdot) (some p) q := by
  obtain ⟨j, l⟩ := q
  by_cases hj : j = k
  · subst hj
    rw [if_pos rfl]
    simp only [Function.update_apply, Prod.mk.injEq, true_and]
    split_ifs with h1 h2 h3
    · rw [h1] at h2
      exact absurd h2 (by decide)
    · rfl
    · rfl
    · exact (hk l).symm
  · rw [Function.update_of_ne fun e => hj (Prod.mk.inj e).1,
      Function.update_of_ne fun e => hj (Prod.mk.inj e).1, if_neg hj]

/-- **`gas_mkdir`** makes a new directory and enters it.  The parent gains a link for `..`, and the
new directory has two. -/
theorem Fs.Consistent.mkdir (h : d.Consistent) (hmode : S_ISDIR (S_IFDIR ||| mode) = true)
    (hlinks : (d.inode dir).i_nlink.toNat < 32000) (hdir : d.isDir dir = true) (hn : IsName name)
    (habs : d.entry (dir, name) = none) (hr : gas_mkdir d dir name mode = (d', none)) :
    d.Did (.mkdir dir name) d' := by
  obtain ⟨i, hi⟩ := Fs.isDir_some hdir
  rw [Fs.inode_of hi] at hlinks
  rcases gas_mkdir_cases h.numbers hdir name mode with ⟨-, e, he⟩ | ⟨d0, inode, v, rfl, hnew, herr, hok⟩
  · rw [he] at hr
    simp at hr
  obtain ⟨n, hused⟩ := h.named.tree.dir_used (show dir ∈ d.space.dirs from hdir)
  -- the link of `..` is taken first
  have hframe := Fs.frame_modify hi inc_linkStep
  have hspace := Fs.space_modify hi inc_linkStep
  have hdirs0 := (h.named.dirs.keeps_modify hi inc_linkStep).dirs
  rw [toNat_inc hlinks] at hspace
  have hdead0 : (d.modify dir inode_inc_link_count).DeadOk := hframe.dead h.named.dead fun k hk => by
    rw [hspace]
    exact update_unlinked hused hk
  have hdir0 : (d.modify dir inode_inc_link_count).isDir dir = true :=
    (Fs.isDir_modify hi inc_linkStep dir).trans hdir
  have hnum0 := h.numbers.frame hframe
  have hentry0 : (d.modify dir inode_inc_link_count).entry = d.entry := congrArg Space.entry hspace
  have hvol0 := hframe.vol
  generalize d.modify dir inode_inc_link_count = d0 at *
  have hne := hnew.ne hdir0
  generalize hm : gas_make_empty ⟨v, inode_inc_link_count inode, 0⟩ dir = r at herr hok
  obtain ⟨c, _ | e⟩ := r
  · obtain ⟨hnum1, hdirs1, hdead1, hvol1, hino, -, hspace1⟩ :=
      hnew.directory hnum0 hdirs0 hmode hdir0 hm
    obtain ⟨herr', hok'⟩ := hok c rfl
    rw [hino] at herr' hok'
    generalize d0.set inode.i_ino c = d1 at *
    have hdir1 : d1.isDir dir = true := by
      have hmem : dir ∈ d1.space.dirs := by
        rw [hspace1]
        exact Set.mem_insert_of_mem _ hdir0
      exact hmem
    have hentry1 : d1.entry = _ := congrArg Space.entry hspace1
    have habs1 : d1.entry (dir, name) = none := by
      rw [hentry1]
      simp only [if_neg hne, hentry0, habs]
    obtain ⟨hframe2, hkeeps2, hout⟩ := hdirs1.add_link hdir1 hn habs1 hnew.pos hnew.lt
    generalize gas_add_link (d1.ctx dir) name inode.i_ino = r at *
    obtain ⟨c', _ | e⟩ := r
    · rw [hok' c' rfl] at hr
      obtain ⟨rfl, -⟩ := Prod.mk.inj hr
      obtain ⟨e, he, -⟩ | ⟨-, hspace2⟩ := hout
      · simp at he
      · refine h.did (hnum1.frame hframe2) hkeeps2.dirs
          (hframe2.dead (hdead1 hdead0) fun k hk => ?_) ((hvol0.trans hvol1).trans hframe2.vol) ?_
        · rw [hspace2]
          exact hk
        · have hk : d.inodes inode.i_ino = none := by
            cases hk : d.inodes inode.i_ino with
            | none => rfl
            | some j =>
              obtain ⟨j', hj', -⟩ := hframe.after hk
              exact absurd (hnew.absent.symm.trans hj') (by simp)
          have hkent : ∀ l, d.entry (inode.i_ino, l) = none := fun l => by
            simp only [Fs.entry, Fs.isDir, hk, Bool.false_eq_true, if_false]
          have hfin : (d1.set dir c').space = {
              nlink := Function.update (Function.update d.space.nlink inode.i_ino (some 2)) dir
                ((d.space.nlink dir).map (· + 1))
              dirs := insert inode.i_ino d.space.dirs
              entry := Function.update (Function.update (Function.update d.space.entry
                (inode.i_ino, dot) (some inode.i_ino)) (inode.i_ino, dotdot) (some dir))
                (dir, name) (some inode.i_ino) } := by
            rw [hspace2, hspace1, hentry1, hspace, hentry0, Fs.nlink_of hi, Function.update_comm hne]
            rw [funext fun q => update_new_directory hkent q]
            rfl
          rw [hfin]
          exact .mkdir hdir habs (by simp only [Fs.space, hk, Option.map_none])
    · rw [herr' c' e rfl] at hr
      simp at hr
  · rw [herr c e rfl] at hr
    simp at hr

end NewDirectories

/-! ## 6. Names and inodes that go

Removal is the reverse, with one difference: the inode stays in core without links until its last
reference is dropped.  Eviction is an act of its own for that reason. -/

section Removal

variable {d d' : Fs Nat} {dir x : Nat} {name : List UInt8} {i : Inode} {c : Ctx}

/-- **`gas_unlink` frees the name and takes a link**, or fails and changes no entry and no count. -/
theorem Fs.DirsOk.unlink (h : d.DirsOk) (hn : IsName name) (hdir : d.isDir dir = true)
    (hx : d.inodes x = some i) :
    let r := gas_unlink d dir name x
    d.Frame r.1 ∧ r.1.DirsOk ∧
      ((∃ e, r.2 = some e ∧ r.1.space = d.space) ∨ r.2 = none ∧ r.1.space = { d.space with
        nlink := Function.update d.space.nlink x (some (inode_dec_link_count i).i_nlink.toNat)
        entry := Function.update d.entry (dir, name) none }) := by
  obtain ⟨idir, hi⟩ := Fs.isDir_some hdir
  obtain ⟨hok, hu⟩ := h dir hdir
  have htick := gas_find_entry_ticked (d.ctx dir) name
  have hsome := fun n p => gas_find_entry_some (c := d.ctx dir) hok hn (n := n) (p := p)
  unfold gas_unlink
  dsimp only
  generalize gas_find_entry (d.ctx dir) name = r at htick hsome
  obtain ⟨o, c⟩ := r
  have hset := Fs.set_of_ticked hi htick
  have hframe1 := Fs.frame_vol (d := d) htick.blockStep
  cases o with
  | none =>
    dsimp only
    rw [hset]
    exact ⟨hframe1, h, Or.inl ⟨_, rfl, rfl⟩⟩
  | some de =>
    obtain ⟨n, p⟩ := de
    obtain ⟨t, ino, hpos, hs⟩ := hsome n p rfl
    obtain rfl : n = (slotPos t).1 := congrArg Prod.fst hpos.symm
    obtain rfl : p = (slotPos t).2 := congrArg Prod.snd hpos.symm
    -- the deletion finds the volume of the scan
    have hc : c = ({ d with vol := c.v } : Fs Nat).ctx dir := by
      obtain ⟨tick, rfl⟩ := htick
      rfl
    obtain ⟨hframe2, hdirs2, -, hout⟩ :=
      Fs.DirsOk.delete_entry (d := { d with vol := c.v }) h hdir hs
    rw [← hc] at hframe2 hdirs2 hout
    have hset2 : ∀ c' : Ctx, ({ d with vol := c.v } : Fs Nat).set dir c' = d.set dir c' := fun _ => rfl
    simp only [hset2] at hframe2 hdirs2 hout
    dsimp only at hframe1 ⊢
    generalize gas_delete_entry c (slotPos t).1 (slotPos t).2 = r at *
    obtain ⟨c', _ | e⟩ := r
    · obtain ⟨e, he, -⟩ | ⟨-, hspace⟩ := hout
      · simp at he
      · dsimp only at hframe2 hdirs2 hspace ⊢
        have hframe := hframe1.trans hframe2
        obtain ⟨i2, hi2, -⟩ := hframe.after hx
        have hf := dec_linkStep.comp (ctime_linkStep ((d.set dir c').inode dir).i_ctime)
        have hl : (inode_dec_link_count i2).i_nlink = (inode_dec_link_count i).i_nlink := by
          rw [inode_dec_link_count, inode_dec_link_count,
            Fs.nlink_eq (congrFun (congrArg Space.nlink hspace) x) hx hi2]
        rw [Fs.modify_modify]
        refine ⟨hframe.trans (Fs.frame_modify hi2 hf), (hdirs2.keeps_modify hi2 hf).dirs,
          Or.inr ⟨rfl, ?_⟩⟩
        rw [Fs.space_modify hi2 hf, hspace, ← hl]
        rfl
    · obtain ⟨e, he, hspace⟩ | ⟨he, -⟩ := hout
      · exact ⟨hframe1.trans hframe2, hdirs2, Or.inl ⟨_, rfl, hspace⟩⟩
      · simp at he

/-- A successful call frees the name of a file.  Its inode may be left without links; it goes with
its last reference. -/
theorem Fs.Consistent.unlink (h : d.Consistent) (hn : IsName name)
    (hentry : d.entry (dir, name) = some x) (hmode : S_ISDIR (d.inode x).i_mode = false)
    (hr : gas_unlink d dir name x = (d', none)) : d.Did (.unlink dir name) d' := by
  obtain ⟨i, hi⟩ := h.named.used hentry
  obtain ⟨n, hused⟩ := h.named.tree.used hentry
  rw [Fs.inode_of hi] at hmode
  have hfile : x ∉ d.space.dirs := by
    simp only [Fs.space, Set.mem_ofPred_eq, Fs.isDir_of hi, hmode, Bool.false_and, Bool.false_eq_true,
      not_false_eq_true]
  obtain ⟨hframe, hdirs, hout⟩ := h.named.dirs.unlink hn (Fs.isDir_of_entry hentry) hi
  rw [hr] at hframe hdirs hout
  obtain ⟨e, he, -⟩ | ⟨-, hspace⟩ := hout
  · simp at he
  · have hn1 : i.i_nlink.toNat = n + 1 := Option.some.inj ((Fs.nlink_of hi).symm.trans hused)
    have hl : some (inode_dec_link_count i).i_nlink.toNat = (d.space.nlink x).map (· - 1) := by
      rw [toNat_dec hn1, Fs.nlink_of hi, hn1]
      rfl
    rw [hl] at hspace
    refine h.did (h.numbers.frame hframe) hdirs (hframe.dead h.named.dead fun k hk => ?_) hframe.vol ?_
    · rw [hspace]
      exact update_unlinked hused hk
    · rw [hspace]
      exact .unlink hentry hfile

/-- A link is taken from an inode that has one. -/
theorem Fs.space_dec {n : Nat} (hx : d.space.nlink x = some (n + 1)) :
    (d.modify x inode_dec_link_count).space =
      { d.space with nlink := Function.update d.space.nlink x (some n) } := by
  obtain ⟨i, hi, hl⟩ := Option.map_eq_some_iff.mp (show (d.inodes x).map _ = some (n + 1) from hx)
  rw [Fs.space_modify hi dec_linkStep, toNat_dec hl]

/-- The links that `gas_rmdir` takes beside the one of `gas_unlink`. -/
theorem Fs.rmdir_links {m n : Nat} {nlink : Nat → Option Nat} {dirs : Set Nat}
    {entry : Nat × List UInt8 → Option Nat} (hne : dir ≠ x) (hm : nlink dir = some (m + 1))
    (hd : d.space = ⟨Function.update nlink x (some (n + 1)), dirs, entry⟩) :
    ((d.modify dir inode_dec_link_count).modify x inode_dec_link_count).space =
      ⟨Function.update (Function.update nlink x (some n)) dir (some m), dirs, entry⟩ := by
  have hspace1 := Fs.space_dec (d := d) (x := dir) (n := m) <| by
    rw [hd]
    exact (Function.update_of_ne hne _ _).trans hm
  rw [hd] at hspace1
  dsimp only at hspace1
  generalize d.modify dir inode_dec_link_count = d1 at *
  have hspace2 := Fs.space_dec (d := d1) (x := x) (n := n) <| by
    rw [hspace1]
    exact (Function.update_of_ne hne.symm _ _).trans (Function.update_self _ _ _)
  rw [hspace1] at hspace2
  refine hspace2.trans ?_
  simp only [Space.mk.injEq, and_true]
  rw [Function.update_comm hne, Function.update_idem]

/-- The VFS marks a directory as removed.  It is the kernel's `S_DEAD`, and `gas_namei.c` does not
look at it. -/
def Fs.bury (d : Fs Nat) (k : Nat) : Fs Nat := d.modify k fun i => { i with dead := true }

/-- A directory marked as removed is none any more. -/
theorem Fs.space_bury (hx : d.inodes x = some i) :
    (d.bury x).space = { d.space with
      dirs := d.space.dirs \ {x}
      entry := fun q => if q.1 = x then none else d.entry q } := by
  have hself : (d.bury x).isDir x = false := by
    rw [Fs.isDir_of (Function.update_self x _ d.inodes), Bool.not_true, Bool.and_false]
  have hother : ∀ j, j ≠ x → (d.bury x).isDir j = d.isDir j := fun j hne => by
    simp only [Fs.isDir, Fs.bury, Fs.modify, Function.update_of_ne hne]
  simp only [Fs.space, Space.mk.injEq]
  refine ⟨?_, ?_, ?_⟩
  · funext j
    rcases eq_or_ne j x with rfl | hne
    · simp only [Fs.bury, Fs.modify, Function.update_self, Option.map_some, Fs.inode_of hx, hx]
    · simp only [Fs.bury, Fs.modify, Function.update_of_ne hne]
  · ext j
    rcases eq_or_ne j x with rfl | hne
    · simp [hself]
    · simp [hother j hne, hne]
  · funext q
    by_cases hq : q.1 = x
    · rw [if_pos hq, Fs.entry, hq, hself, if_neg (by simp)]
    · rw [if_neg hq, Fs.entry, Fs.entry, hother _ hq, Fs.bury, Fs.modify_inode_of_ne d hq]

/-- The mark of the VFS leaves the numbers. -/
theorem Fs.NumbersOk.bury (h : d.NumbersOk) (hx : d.inodes x = some i) : (d.bury x).NumbersOk where
  geometry := h.geometry
  limit := h.limit
  zero := h.zero
  ino k i' hk := by
    rcases eq_or_ne k x with rfl | hne
    · obtain rfl := Option.some.inj ((Function.update_self _ _ d.inodes).symm.trans hk)
      rw [Fs.inode_of hx]
      exact h.ino k i hx
    · exact h.ino k i' ((Function.update_of_ne hne _ d.inodes).symm.trans hk)

/-- And the other directories. -/
theorem Fs.DirsOk.bury (h : d.DirsOk) (x : Nat) : (d.bury x).DirsOk := by
  intro j hj
  rcases eq_or_ne j x with rfl | hne
  · rw [Fs.isDir_of (Function.update_self j _ d.inodes), Bool.not_true, Bool.and_false] at hj
    exact absurd hj (by simp)
  · rw [Fs.bury, Fs.modify_inode_of_ne d hne]
    refine h j ?_
    simpa only [Fs.isDir, Fs.bury, Fs.modify, Function.update_of_ne hne] using hj

/-- The entries of a directory that is gone, taken away one by one. -/
theorem update_gone {E : Nat × List UInt8 → Option Nat} {k : Nat} {q₀ : Nat × List UInt8}
    (hk : ∀ l, l ≠ dot → l ≠ dotdot → E (k, l) = none) (q : Nat × List UInt8) :
    (if q.1 = k then none else Function.update E q₀ none q) =
      Function.update (Function.update (Function.update E q₀ none) (k, dot) none) (k, dotdot) none
        q := by
  obtain ⟨j, l⟩ := q
  by_cases hj : j = k
  · subst hj
    rw [if_pos rfl]
    simp only [Function.update_apply, Prod.mk.injEq, true_and]
    split_ifs with h1 h2 h3
    · rfl
    · rfl
    · rfl
    · exact (hk l h2 h1).symm
  · rw [if_neg hj, Function.update_of_ne fun e => hj (Prod.mk.inj e).1,
      Function.update_of_ne fun e => hj (Prod.mk.inj e).1]

/-- **`gas_rmdir` frees the name**, if `gas_empty_dir` finds nothing, or fails and changes no entry and
no count. -/
theorem Fs.DirsOk.rmdir (h : d.DirsOk) (hn : IsName name) (hdir : d.isDir dir = true)
    (hx : d.inodes x = some i) :
    let r := gas_rmdir d dir name x
    d.Frame r.1 ∧ r.1.DirsOk ∧ ((∃ e, r.2 = some e ∧ r.1.space = d.space) ∨ r.2 = none ∧ ∃ d1 : Fs Nat,
      d1.space = { d.space with
        nlink := Function.update d.space.nlink x (some (inode_dec_link_count i).i_nlink.toNat)
        entry := Function.update d.entry (dir, name) none } ∧
      r.1 = (d1.modify dir inode_dec_link_count).modify x inode_dec_link_count) := by
  have htick := gas_empty_dir_ticked (d.ctx x)
  unfold gas_rmdir
  generalize gas_empty_dir (d.ctx x) = r at htick
  obtain ⟨b, c⟩ := r
  have hset := Fs.set_of_ticked hx htick
  have hframe1 := Fs.frame_vol (d := d) htick.blockStep
  cases b with
  | false =>
    dsimp only at hset hframe1 ⊢
    rw [hset]
    exact ⟨hframe1, h, Or.inl ⟨_, rfl, rfl⟩⟩
  | true =>
    dsimp only at hset hframe1 ⊢
    rw [hset]
    obtain ⟨hframe2, hdirs2, hout⟩ := Fs.DirsOk.unlink (d := { d with vol := c.v }) h hn hdir hx
    dsimp only at hframe2 hdirs2 hout
    generalize gas_unlink { d with vol := c.v } dir name x = r at *
    have hframe := hframe1.trans hframe2
    obtain ⟨d1, _ | e⟩ := r
    · obtain ⟨e, he, -⟩ | ⟨-, hspace⟩ := hout
      · simp at he
      · obtain ⟨idir, hi⟩ := Fs.isDir_some hdir
        obtain ⟨idir1, hi1, -⟩ := hframe.after hi
        obtain ⟨ix1, hx1, -⟩ := hframe.after hx
        have hframe3 := Fs.frame_modify hi1 dec_linkStep
        obtain ⟨ix2, hx2, -⟩ := hframe3.after hx1
        have hdirs3 := (hdirs2.keeps_modify hi1 dec_linkStep).dirs
        exact ⟨(hframe.trans hframe3).trans (Fs.frame_modify hx2 dec_linkStep),
          (hdirs3.keeps_modify hx2 dec_linkStep).dirs, Or.inr ⟨rfl, d1, hspace, rfl⟩⟩
    · obtain ⟨e', he, hspace⟩ | ⟨he, -⟩ := hout
      · exact ⟨hframe, hdirs2, Or.inl ⟨e, rfl, hspace⟩⟩
      · simp at he

/-- **A deserted directory goes.** That it is deserted is a hypothesis here, since `gas_empty_dir`
only sees the pages it can read. -/
theorem Fs.Consistent.rmdir (h : d.Consistent) (hn : IsName name) (hdot : name ≠ dot)
    (hdotdot : name ≠ dotdot) (hentry : d.entry (dir, name) = some x)
    (hmode : S_ISDIR (d.inode x).i_mode = true) (hdes : Deserted (d.inode x))
    (hr : gas_rmdir d dir name x = (d', none)) : d.Did (.rmdir dir name) (d'.bury x) := by
  have hdir : d.isDir dir = true := Fs.isDir_of_entry hentry
  obtain ⟨i, hi⟩ := h.named.used hentry
  have hxdir := h.named.isDir_of_entry hentry hmode
  obtain ⟨m, hlinks'⟩ := h.named.tree.dir_used (show dir ∈ d.space.dirs from hdir)
  -- nothing but `.` and `..` is held in the directory
  have hempty : ∀ l, d.entry (x, l) ≠ none → l = dot ∨ l = dotdot := by
    intro l hne
    obtain ⟨y, hy⟩ := Option.ne_none_iff_exists'.mp hne
    rw [Fs.entry_of_isDir hxdir] at hy
    obtain ⟨t, ht⟩ := List.mem_iff_getElem?.mp (mem_live.mp (mem_live_of_lookup hy))
    exact hdes t _ ht
  have hlinks : d.space.nlink x = some 2 :=
    h.named.tree.leaf_links (by decide) ⟨hentry, hdot, hdotdot⟩ hxdir hempty
  have hne : dir ≠ x := by
    rintro rfl
    rcases hempty name (by rw [hentry]; simp) with e | e
    · exact hdot e
    · exact hdotdot e
  obtain ⟨hframe, hdirs, hout⟩ := h.named.dirs.rmdir hn hdir hi
  rw [hr] at hframe hdirs hout
  obtain ⟨e, he, -⟩ | ⟨-, d1, hspace1, hd'⟩ := hout
  · simp at he
  have hl : (inode_dec_link_count i).i_nlink.toNat = 1 :=
    toNat_dec (Option.some.inj ((Fs.nlink_of hi).symm.trans hlinks))
  rw [hl] at hspace1
  have hspace := Fs.rmdir_links (n := 0) hne hlinks' hspace1
  dsimp only at hframe hdirs hspace hd'
  rw [← hd'] at hspace
  obtain ⟨i', hi', -⟩ := hframe.after hi
  have hnlink : d'.space.nlink = Function.update (Function.update d.space.nlink x (some 0)) dir
      (some m) := congrArg Space.nlink hspace
  have hdead : d'.DeadOk := hframe.dead h.named.dead fun k hk => by
    rw [hnlink]
    exact update_unlinked (n := m) ((Function.update_of_ne hne _ _).trans hlinks')
      (update_unlinked hlinks hk)
  refine h.did ((h.numbers.frame hframe).bury hi') (hdirs.bury x) (fun k j hk hj => ?_) hframe.vol ?_
  · rcases eq_or_ne k x with rfl | hkx
    · obtain rfl := Option.some.inj ((Function.update_self _ _ d'.inodes).symm.trans hk)
      have h0 := congrFun hnlink k
      rw [Fs.nlink_of hi', Function.update_of_ne hne.symm, Function.update_self] at h0
      rw [Fs.inode_of hi']
      exact BitVec.eq_of_toNat_eq (Option.some.inj h0)
    · exact hdead k j ((Function.update_of_ne hkx _ d'.inodes).symm.trans hk) hj
  · have hfin : (d'.bury x).space = {
        nlink := Function.update (Function.update d.space.nlink x ((d.space.nlink x).map (· - 2)))
          dir ((d.space.nlink dir).map (· - 1))
        dirs := d.space.dirs \ {x}
        entry := Function.update (Function.update (Function.update d.space.entry (dir, name) none)
          (x, dot) none) (x, dotdot) none } := by
      have hentry' : d'.entry = Function.update d.entry (dir, name) none :=
        congrArg Space.entry hspace
      rw [Fs.space_bury hi', hentry', hspace, hlinks, hlinks']
      simp only [Space.mk.injEq]
      refine ⟨rfl, trivial, funext fun q => update_gone (fun l hl1 hl2 => ?_) q⟩
      by_contra he
      rcases hempty l he with e | e
      · exact hl1 e
      · exact hl2 e
    rw [hfin]
    exact .rmdir ⟨hentry, hdot, hdotdot⟩ hxdir hempty

/-- An inode that is no directory goes, and with it its count. -/
theorem Fs.space_drop (hdir : d.isDir x = false) (v : Vol) :
    Fs.space ⟨v, Function.update d.inodes x none⟩ =
      { d.space with nlink := Function.update d.space.nlink x none } := by
  have hself : Fs.isDir ⟨v, Function.update d.inodes x none⟩ x = false := by
    simp only [Fs.isDir, Function.update_self]
  have hother : ∀ j, j ≠ x → Fs.isDir ⟨v, Function.update d.inodes x none⟩ j = d.isDir j :=
    fun j hne => by simp only [Fs.isDir, Function.update_of_ne hne]
  have hall : ∀ j, Fs.isDir ⟨v, Function.update d.inodes x none⟩ j = d.isDir j := fun j => by
    rcases eq_or_ne j x with rfl | hne
    · rw [hself, hdir]
    · exact hother j hne
  simp only [Fs.space, Space.mk.injEq, hall, true_and]
  refine ⟨?_, ?_⟩
  · funext j
    rcases eq_or_ne j x with rfl | hne
    · simp only [Function.update_self, Option.map_none]
    · simp only [Function.update_of_ne hne]
  · funext q
    rw [Fs.entry, Fs.entry, hall]
    by_cases hq : q.1 = x
    · rw [hq, hdir, if_neg (by simp), if_neg (by simp)]
    · simp only [Fs.inode, Function.update_of_ne hq]

/-- An inode that is dropped takes no other directory with it. -/
theorem Fs.dirsOk_drop (h : ∀ j, j ≠ x → d.isDir j = true → DirOk (d.inode j) ∧ Uniq (d.inode j).slots)
    (v : Vol) : Fs.DirsOk ⟨v, Function.update d.inodes x none⟩ := by
  intro j hj
  rcases eq_or_ne j x with rfl | hne
  · simp only [Fs.isDir, Function.update_self] at hj
    exact absurd hj (by simp)
  · have hin : Fs.inode ⟨v, Function.update d.inodes x none⟩ j = d.inode j := by
      simp only [Fs.inode, Function.update_of_ne hne]
    rw [hin]
    refine h j hne ?_
    simpa only [Fs.isDir, Function.update_of_ne hne] using hj

/-- **The number of an evicted inode is free**, and all others stay right. -/
theorem Fs.NumbersOk.evict (h : d.NumbersOk) (hx : d.inodes x = some i) (hl : i.i_nlink = 0) :
    Fs.NumbersOk ⟨(gas_evict_inode (d.ctx x)).v, Function.update d.inodes x none⟩ ∧
      SameVol d.vol (gas_evict_inode (d.ctx x)).v := by
  obtain ⟨hino, hpos, -⟩ := h.ino x i hx
  obtain ⟨hvol, hbits⟩ := gas_evict_inode_iam h.geometry (v := d.vol) hl
  rw [hino] at hbits
  rw [Fs.ctx, Fs.inode_of hx]
  refine ⟨⟨hvol.geometry h.geometry, ?_, ?_, fun k j hk => ?_⟩, hvol⟩
  · rw [Vol.inoLimit, hvol.sbi]
    exact h.limit
  · rw [hbits 0 hpos.ne]
    exact h.zero
  · have hkx : k ≠ x := by
      rintro rfl
      exact absurd ((Function.update_self _ _ d.inodes).symm.trans hk) (by simp)
    obtain ⟨h1, h2, h3, h4⟩ := h.ino k j ((Function.update_of_ne hkx _ d.inodes).symm.trans hk)
    exact ⟨h1, h2, h3, (hbits k hkx).trans h4⟩

/-- **Eviction.** It has no name, so no entry is lost with it. -/
theorem Fs.Consistent.evict (h : d.Consistent) (hx : d.inodes x = some i) (hl : i.i_nlink = 0) :
    d.Did (.drop x) ⟨(gas_evict_inode (d.ctx x)).v, Function.update d.inodes x none⟩ := by
  have hlink : d.space.nlink x = some 0 := by
    rw [Fs.nlink_of hx, hl]
    rfl
  have hdir : d.isDir x = false := by
    rw [← Bool.not_eq_true]
    intro hd
    obtain ⟨n, hn⟩ := h.named.tree.dir_used (show x ∈ d.space.dirs from hd)
    rw [hn] at hlink
    simp at hlink
  obtain ⟨hnum, hvol⟩ := h.numbers.evict hx hl
  refine h.did hnum (Fs.dirsOk_drop (fun j _ => h.named.dirs j) _) (fun k j hk hj => ?_) hvol ?_
  · have hkx : k ≠ x := by
      rintro rfl
      exact absurd ((Function.update_self _ _ d.inodes).symm.trans hk) (by simp)
    exact h.named.dead k j ((Function.update_of_ne hkx _ d.inodes).symm.trans hk) hj
  · rw [Fs.space_drop hdir]
    exact .drop hlink

end Removal

end GasFs
