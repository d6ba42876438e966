/-
# Calls are atomic

To the namespace a call does what is asked of it (`NameOp.act`) or nothing.  A successful call takes
the one step asked for (`Fs.Consistent.call_did`); one that fails and undoes what it did
(`NameOp.Undoes`) changes no name and no link count, and leaves a consistent file system.

So the names, the directories and the link counts are what the acts of the successful calls make of the
space they began with (`Traced`), whatever succeeds (`Traced.done`) and fails (`Traced.undone`).

The two halves need each other.  That a failed call leaves the namespace is of use for a run only if
the file system it leaves is consistent as well, since the next call relies on that.

Which failures undo what they did is `NameOp.Undoes`: those of `gas_mkdir`, `gas_unlink` and
`gas_rmdir` all do, those of the calls that make a file only in front of its entry, and those of
`gas_link` never.  A file that could not be entered stays in core with a link and without a name.
-/
import GasFs.Namei.Failed
import GasFs.Namei.Unique

namespace GasFs

open Bytes SlotTable Namespace

/-! ## 1. Calls that fail

Two facts are shown of each failed call: the namespace is the same (`NoTrace`), and no directory was
marked as removed that was not before (`Buried`).  With them the consistency of the old state
carries over. -/

/-- What is marked as removed was so before.  The mark is the one that the VFS sets behind a
successful `rmdir`. -/
def Buried (d d' : Fs Nat) : Prop :=
  ∀ k i', d'.inodes k = some i' → i'.dead = true → ∃ i, d.inodes k = some i ∧ i.dead = true

section Failed

variable {d d' d'' : Fs Nat} {dir k x : Nat} {name : List UInt8} {mode : BitVec 16} {i : Inode} {c : Ctx}
  {e : Errno} {op : NameOp}

/-- Nothing was marked. -/
theorem Buried.refl (d : Fs Nat) : Buried d d := fun _ i hk hdead => ⟨i, hk, hdead⟩

/-- One change after another. -/
theorem Buried.trans (h : Buried d d') (h' : Buried d' d'') : Buried d d'' := fun k i'' hk hdead => by
  obtain ⟨i', hk', hdead'⟩ := h' k i'' hk hdead
  exact h k i' hk' hdead'

/-- A change within the frame marks nothing, since it leaves the inodes in core. -/
theorem Fs.Frame.buried (hf : d.Frame d') : Buried d d' := fun k i' hk hdead => by
  obtain ⟨i, hi, he⟩ := hf.before hk
  exact ⟨i, hi, (congrArg (·.2.2) he).symm.trans hdead⟩

/-- An inode that is not removed. -/
theorem buried_set (hc : c.inode.dead = false) : Buried d (d.set k c) := by
  intro j i' hj hdead
  rcases eq_or_ne j k with rfl | hne
  · obtain rfl := Option.some.inj ((Function.update_self _ _ d.inodes).symm.trans hj)
    rw [hc] at hdead
    simp at hdead
  · exact ⟨i', (Function.update_of_ne hne _ d.inodes).symm.trans hj, hdead⟩

/-- An inode that is dropped is marked by nothing. -/
theorem buried_iput : Buried d (d.iput k) := by
  intro j i' hj hdead
  unfold Fs.iput at hj
  split at hj
  · rcases eq_or_ne j k with rfl | hne
    · exact absurd ((Function.update_self _ _ d.inodes).symm.trans hj) (by simp)
    · exact ⟨i', (Function.update_of_ne hne _ d.inodes).symm.trans hj, hdead⟩
  · exact ⟨i', hj, hdead⟩

/-- A half-made directory goes. -/
theorem buried_mkdir_fail {idir : Inode} (hk : d.inodes k = some i) (hi : d.inodes dir = some idir)
    (hne : dir ≠ k) : Buried d (mkdir_fail d dir k) := by
  have h1 := Fs.frame_modify hk (dec_linkStep.comp dec_linkStep)
  unfold mkdir_fail
  dsimp only
  rw [Fs.modify_modify]
  have hdir1 : ((d.modify k (inode_dec_link_count ∘ inode_dec_link_count)).iput k).inodes dir = some idir := by
    rw [Fs.iput_inodes_of_ne hne]
    exact (Function.update_of_ne hne _ _).trans hi
  exact (h1.buried.trans buried_iput).trans (Fs.frame_modify hdir1 dec_linkStep).buried

/-- **A consistent file system whose namespace did not change** is consistent. -/
theorem Fs.Consistent.undone (h : d.Consistent) (hspace : d'.space = d.space) (hw : d'.WellFormed)
    (hb : Buried d d') : d'.Consistent where
  numbers := hw.numbers
  named :=
    { ino := fun k i hk => ⟨(hw.numbers.ino k i hk).1, (hw.numbers.ino k i hk).2.2.1⟩
      dead := fun k i' hk hdead => by
        obtain ⟨i, hi, hdead'⟩ := hb k i' hk hdead
        have h0 := congrFun (congrArg Space.nlink hspace) k
        rw [Fs.nlink_of hk, Fs.nlink_of hi, h.named.dead k i hi hdead'] at h0
        exact BitVec.eq_of_toNat_eq (Option.some.inj h0)
      dirs := hw.dirs
      tree := by
        rw [hspace]
        exact h.named.tree }

/-- `gas_symlink` marks nothing. -/
theorem gas_symlink_buried (h : d.NumbersOk) (hdir : d.isDir dir = true) {symname : List UInt8}
    (hr : gas_symlink d dir name symname = (d', some e)) (hn : NoTrace d d') : Buried d d' := by
  rcases gas_symlink_cases h hdir name symname with ⟨e', v, -, he⟩ | ⟨inode, v, hnew, herr, hok⟩
  · rw [he] at hr
    obtain ⟨rfl, -⟩ := Prod.mk.inj hr
    exact Buried.refl d
  · obtain ⟨-, hs⟩ := page_symlink_step ⟨v, inode, 0⟩ symname
    generalize page_symlink ⟨v, inode, 0⟩ symname = r at herr hok hs
    obtain ⟨c, _ | e'⟩ := r
    · -- the new inode would be a trace
      rw [hok c rfl] at hr
      obtain ⟨rfl, -⟩ := Prod.mk.inj hr
      have hk : ((d.set inode.i_ino c).set dir (gas_add_link ((d.set inode.i_ino c).ctx dir) name
          inode.i_ino).1).inodes inode.i_ino = some c.inode :=
        (Fs.set_inodes_of_ne (hnew.ne hdir).symm).trans (Function.update_self ..)
      exact absurd hn (not_noTrace hnew.absent hk)
    · rw [herr c e' rfl] at hr
      obtain ⟨rfl, -⟩ := Prod.mk.inj hr
      have hself : (d.set inode.i_ino c).inodes inode.i_ino = some c.inode := Function.update_self ..
      have hframe := Fs.frame_modify hself dec_linkStep
      exact ((buried_set (hs.fields.2.2.2.trans hnew.dead)).trans hframe.buried).trans buried_iput

/-- Nor does `gas_mkdir`, whichever exit it takes. -/
theorem gas_mkdir_buried (h : d.WellFormed) (hdir : d.isDir dir = true) (hn : IsName name)
    (habs : d.entry (dir, name) = none) (hmode : S_ISDIR (S_IFDIR ||| mode) = true)
    (hr : gas_mkdir d dir name mode = (d', some e)) : Buried d d' := by
  obtain ⟨i, hi⟩ := Fs.isDir_some hdir
  rcases gas_mkdir_cases h.numbers hdir name mode with ⟨-, e', he⟩ | ⟨d0, inode, v, rfl, hnew, herr, hok⟩
  · rw [he] at hr
    obtain ⟨rfl, -⟩ := Prod.mk.inj hr
    exact Buried.refl d
  have hframe := Fs.frame_modify hi inc_linkStep
  have hnum0 := h.numbers.frame hframe
  have hdirs0 := (h.dirs.keeps_modify hi inc_linkStep).dirs
  have hdir0 : (d.modify dir inode_inc_link_count).isDir dir = true := (hframe.isDir dir).trans hdir
  have hentry0 : (d.modify dir inode_inc_link_count).entry = d.entry :=
    congrArg Space.entry (Fs.space_modify hi inc_linkStep)
  generalize d.modify dir inode_inc_link_count = d0 at *
  have hne := hnew.ne hdir0
  obtain ⟨hs, -⟩ := gas_make_empty_spec (c := ⟨v, inode_inc_link_count inode, 0⟩)
    (show (inode_inc_link_count inode).i_size = 0 from hnew.size)
    (fun n a _ _ => show (inode_inc_link_count inode).pages n a = 0 from hnew.pages n a) dir
  generalize hm : gas_make_empty ⟨v, inode_inc_link_count inode, 0⟩ dir = r at herr hok hs
  obtain ⟨c, o⟩ := r
  have hput : Buried d0 (d0.set inode.i_ino c) := buried_set (hs.fields.2.2.2.trans hnew.dead)
  have hx1 : (d0.set inode.i_ino c).inodes inode.i_ino = some c.inode := Function.update_self ..
  obtain ⟨j, hj⟩ := Fs.isDir_some hdir0
  have hin1 : (d0.set inode.i_ino c).inodes dir = some j := (Fs.set_inodes_of_ne hne).trans hj
  cases o with
  | some e' =>
    rw [herr c e' rfl] at hr
    obtain ⟨rfl, -⟩ := Prod.mk.inj hr
    exact (hframe.buried.trans hput).trans (buried_mkdir_fail hx1 hin1 hne)
  | none =>
    obtain ⟨-, hdirs1, -, -, hino, -, hspace1⟩ := hnew.directory hnum0 hdirs0 hmode hdir0 hm
    obtain ⟨herr', hok'⟩ := hok c rfl
    rw [hino] at herr' hok'
    have hdir1 : (d0.set inode.i_ino c).isDir dir = true := by
      simpa only [Fs.isDir, Fs.set_inodes_of_ne hne] using hdir0
    have habs1 : (d0.set inode.i_ino c).entry (dir, name) = none := by
      have he : (d0.set inode.i_ino c).entry = _ := congrArg Space.entry hspace1
      rw [he]
      simp only [if_neg hne, hentry0, habs]
    obtain ⟨hframe2, -⟩ := hdirs1.add_link hdir1 hn habs1 hnew.pos hnew.lt
    generalize gas_add_link ((d0.set inode.i_ino c).ctx dir) name inode.i_ino = r at *
    obtain ⟨c', _ | e'⟩ := r
    · rw [hok' c' rfl] at hr
      simp at hr
    · rw [herr' c' e' rfl] at hr
      obtain ⟨rfl, -⟩ := Prod.mk.inj hr
      have hx2 : ((d0.set inode.i_ino c).set dir c').inodes inode.i_ino = some c.inode :=
        (Fs.set_inodes_of_ne hne.symm).trans hx1
      have hin2 : ((d0.set inode.i_ino c).set dir c').inodes dir = some c'.inode := Function.update_self ..
      exact ((hframe.buried.trans hput).trans hframe2.buried).trans (buried_mkdir_fail hx2 hin2 hne)

/-- `gas_mknod` and `gas_create` without an inode. -/
theorem Fs.Consistent.new_nondir_undone (h : d.Consistent) (hb : d.Books) {rdev : Nat}
    (hnew : NewName d dir name) (hmode : S_ISDIR mode = false) (hno : d.NoInode)
    (hr : GasFs.new_nondir d dir name mode rdev = (d', some e)) :
    d'.Consistent ∧ NoTrace d d' ∧ SameVol d.vol d'.vol := by
  have hwell : d.WellFormed := ⟨h.numbers, h.named.dirs⟩
  have hn := (new_nondir_fails hb hnew.live hr).mpr hno
  obtain ⟨hw, hv⟩ := hwell.new_nondir hmode hnew.live hnew.isName hnew.absent rdev
  rw [hr] at hw hv
  refine ⟨h.undone hn.space hw ?_, hn, hv⟩
  rcases new_nondir_cases h.numbers hnew.live name mode rdev with ⟨-, e', he⟩ | ⟨inode, v, hino, he⟩
  · rw [he] at hr
    obtain ⟨rfl, -⟩ := Prod.mk.inj hr
    exact Buried.refl d
  · rw [he] at hr
    obtain ⟨rfl, -⟩ := Prod.mk.inj hr
    refine absurd hn (not_noTrace (i := inode) hino.absent ?_)
    exact (Fs.set_inodes_of_ne (hino.ne hnew.live).symm).trans (Function.update_self ..)

/-- **A failed call that undoes what it did** leaves a consistent file system, and the namespace as it
was. -/
theorem Fs.Consistent.call_undone (h : d.Consistent) (hb : d.Books) (hallowed : op.Allowed d)
    (hundo : op.Undoes d) (hcall : op.call d = (d', some e)) :
    d'.Consistent ∧ NoTrace d d' ∧ SameVol d.vol d'.vol := by
  have hwell : d.WellFormed := ⟨h.numbers, h.named.dirs⟩
  unfold NameOp.call at hcall
  cases op with
  | mknod dir name mode rdev => exact h.new_nondir_undone hb hallowed.1 hallowed.2 hundo hcall
  | create dir name mode => exact h.new_nondir_undone hb hallowed.1 hallowed.2 hundo hcall
  | symlink dir name symname =>
    have hn := (gas_symlink_fails hb hallowed.live hcall).mpr hundo
    obtain ⟨hw, hv⟩ := gas_symlink_wellFormed hwell hallowed.live hallowed.isName hallowed.absent symname
    dsimp only at hcall
    rw [hcall] at hw hv
    exact ⟨h.undone hn.space hw (gas_symlink_buried h.numbers hallowed.live hcall hn), hn, hv⟩
  | link inode dir name => exact hundo.elim
  | mkdir dir name mode =>
    obtain ⟨hnew, hmode, -⟩ := hallowed
    have hdir := S_ISDIR_mkdir hmode
    have hn := gas_mkdir_fails hb h.named.dirs hnew.isName hnew.live hmode hcall
    obtain ⟨hw, hv⟩ := gas_mkdir_wellFormed hwell hdir hnew.live hnew.isName hnew.absent
    dsimp only at hcall
    rw [hcall] at hw hv
    exact ⟨h.undone hn.space hw (gas_mkdir_buried hwell hnew.live hnew.isName hnew.absent hdir hcall), hn, hv⟩
  | unlink dir name inode =>
    obtain ⟨hold, -⟩ := hallowed
    obtain ⟨i, hi⟩ := h.named.used hold.entry
    have hdir := Fs.isDir_of_entry hold.entry
    have hn := gas_unlink_fails hb h.named.dirs hold.isName hdir ⟨i, hi⟩ hcall
    obtain ⟨hframe, hdirs, -⟩ := h.named.dirs.unlink hold.isName hdir hi
    dsimp only at hcall
    rw [hcall] at hframe hdirs
    exact ⟨h.undone hn.space ⟨h.numbers.frame hframe, hdirs⟩ hframe.buried, hn, hframe.vol⟩
  | rmdir dir name inode =>
    obtain ⟨hold, -⟩ := hallowed
    obtain ⟨i, hi⟩ := h.named.used hold.entry
    have hdir := Fs.isDir_of_entry hold.entry
    have hn := gas_rmdir_fails hb h.named.dirs hold.isName hdir ⟨i, hi⟩ hcall
    obtain ⟨hframe, hdirs, -⟩ := h.named.dirs.rmdir hold.isName hdir hi
    dsimp only at hcall
    rw [hcall] at hframe hdirs
    exact ⟨h.undone hn.space ⟨h.numbers.frame hframe, hdirs⟩ hframe.buried, hn, hframe.vol⟩
  | iput inode => simp at hcall
  | caller env => simp at hcall

end Failed

/-! ## 2. Traces

`Traced` is the invariant of a run: the state is consistent, the books are right, and the acts so
far lead from the first space to this one.  A call that succeeds adds its act, and one that fails
adds none. -/

section Traces

variable {d d' : Fs Nat} {op : NameOp} {as : List (Act Nat (List UInt8))} {s : Space Nat (List UInt8)}

/-- What the VFS allows is in core. -/
theorem NameOp.Allowed.able (h : d.Consistent) (hallowed : op.Allowed d) : op.Able d := by
  have hcore : ∀ {dir name x}, d.entry (dir, name) = some x → d.HasTree dir ∧ d.InCore x :=
    fun he => ⟨Fs.hasTree_of_isDir (Fs.isDir_of_entry he), h.named.used he⟩
  cases op with
  | mknod dir name mode rdev => exact Fs.hasTree_of_isDir hallowed.1.live
  | create dir name mode => exact Fs.hasTree_of_isDir hallowed.1.live
  | symlink dir name symname => exact Fs.hasTree_of_isDir hallowed.live
  | link inode dir name =>
    obtain ⟨hnew, ⟨q, hq⟩, -⟩ := hallowed
    exact ⟨Fs.hasTree_of_isDir hnew.live, (hcore hq).2⟩
  | mkdir dir name mode => exact ⟨Fs.hasTree_of_isDir hallowed.1.live, hallowed.2.1⟩
  | unlink dir name inode => exact hcore hallowed.1.entry
  | rmdir dir name inode => exact hcore hallowed.1.entry
  | iput inode => exact Option.isSome_iff_exists.mp hallowed
  | caller env => trivial

/-- **A call keeps the books**, and the mark of the VFS does not touch them. -/
theorem Fs.Books.call_mark (h : d.Books) (hable : op.Able d) {o : Option Errno}
    (hcall : op.call d = (d', o)) : (if o = none then op.mark d' else d').Books := by
  have hrun : SysOp.run linux_dev d (.name op) = if o = none then op.mark d' else d' := by
    rw [SysOp.run, hcall]
  rw [← hrun]
  have hable : (SysOp.name op).Able d := hable
  exact (h.sys_step linux_dev hable).1

/-- What a run comes to: what the calls rely on, and a trace of acts from the space `s`.  The books
are part of it because a failed call that is undone gives back what it took. -/
structure Traced (s : Space Nat (List UInt8)) (as : List (Act Nat (List UInt8))) (d : Fs Nat) : Prop where
  consistent : d.Consistent
  books : d.Books
  reads : ∀ n, d.vol.env.pgread n = true
  trace : Trace dot dotdot s as d.space

/-- A call that succeeds. -/
theorem Traced.done (h : Traced s as d) (hallowed : op.Allowed d) (hreads : op.Reads)
    (hcall : op.call d = (d', none)) : Traced s (as ++ (op.act d).toList) (op.mark d') := by
  obtain ⟨hc, hb, hr, htrace⟩ := h
  have hb' := hb.call_mark (hallowed.able hc) hcall
  rw [if_pos rfl] at hb'
  rcases hc.call_did hallowed (hc.spares hr hallowed hcall) hcall with
    ⟨a, ha, hdid⟩ | ⟨ha, hc', hspace, hsilent⟩
  · rw [ha]
    exact ⟨hdid.consistent, hb', fun n => by rw [hdid.vol.env]; exact hr n, htrace.act hdid.does⟩
  · rw [ha, Option.toList_none, List.append_nil]
    refine ⟨hc', hb', fun n => ?_, hspace ▸ htrace⟩
    rcases hsilent with ⟨env, rfl, henv⟩ | hd
    · rw [henv]
      exact hreads n
    · rw [hd]
      exact hr n

/-- One that fails and undoes what it did.  The list of acts stays the same. -/
theorem Traced.undone (h : Traced s as d) (hallowed : op.Allowed d) (hundo : op.Undoes d) {e : Errno}
    (hcall : op.call d = (d', some e)) : Traced s as d' := by
  obtain ⟨hc, hb, hr, htrace⟩ := h
  have hb' := hb.call_mark (hallowed.able hc) hcall
  rw [if_neg (by simp)] at hb'
  obtain ⟨hc', hn, hv⟩ := hc.call_undone hb hallowed hundo hcall
  exact ⟨hc', hb', fun n => by rw [hv.env]; exact hr n, hn.space ▸ htrace⟩

/-- A new file system.  No act has been done yet, and the space is the root alone. -/
theorem Fs.Fresh.traced (h : d.Fresh) (hsize : d.vol.sbi.s_nblocks ≤ 1073741824)
    (hio : ∀ n, d.vol.env.pgread n = true) : Traced (.alone dot dotdot GAS_ROOT_INO) [] d :=
  ⟨h.consistent, h.books hsize, hio, h.space ▸ .start⟩

end Traces

end GasFs
