/-
# Names are unique

No function compares a new name with all entries of its directory: `gas_add_link` stops at the first
slot it can use, and what lies behind is left to the lookup that the VFS makes before.  So no name is
entered twice as long as that lookup comes to every record that has the name (`no_name_twice`), whether
the calls succeed or fail.  It does not when the cursor of `gas_iterate` has run past the end of the
directory: `name_twice` is a run of calls that enters a name again.

A directory that was removed is looked at like any other here.

The run here is weaker than that of `GasFs.Namei.Run` in what it knows: calls may fail and the state
need not be a tree.  What it keeps is `Fs.WellFormed`, right numbers and directories in which no
name is twice, and that is kept by every call, whichever exit it takes.

The condition is on the lookup and not on the call.  A lookup misses a record only behind the place
where the running position of `gas_iterate` reaches the size of the directory; `AllSeen` says that
no record of the name is there.
-/
import GasFs.Namei.Run

namespace GasFs

open Bytes SlotTable Namespace

/-! ## 1. What a lookup tells

The VFS has looked the name up before it asks for it, and a negative answer means that no record was
come to.  Together with `AllSeen` it means that there is none. -/

/-- The name was looked up in the directory as it is now, and nothing was found.  The answers of the
kernel at the time of the lookup are those that the number of its first request gives. -/
def LookedUp (dev : DevCodec) (d : Fs Nat) (dir : Nat) (name : List UInt8) : Prop :=
  ∃ tick, (gas_lookup dev { d with vol := { d.vol with tick := tick } } dir name).1 = .null none

section Lookup

variable {dev : DevCodec} {d : Fs Nat} {dir : Nat} {name : List UInt8}

/-- A lookup comes to every record that is seen.  All pages can be read, so nothing but the running
position can miss a record. -/
theorem comesTo_of_seen {c : Ctx} {t ino : Nat} (hd : DirOk c.inode)
    (hio : ∀ n, c.v.env.pgread n = true) (hs : c.inode.slots[t]? = some (some (name, ino)))
    (hseen : Seen c.inode t) : ComesTo c name := by
  obtain ⟨P, m, hdim⟩ := hd.dims
  obtain ⟨hlt, hslot⟩ := getElem?_slots_eq_some.mp hs
  have hm := hdim.le
  rw [hdim.nslots] at hlt
  rw [Seen] at hseen
  refine ⟨t / 15, t % 15, ino, ?_, fun i _ => hio _, by omega, hseen, ?_⟩
  · rw [hdim.pages]
    omega
  · rw [← hslot, Inode.slot]
    refine slotAt_congr fun a _ h2 => page_address_of_lt ?_
    have h260 : a < 260 * (t % 15) + 260 := h2
    omega

/-- **A name that was not found is absent**, if a lookup sees every record that has it. -/
theorem LookedUp.absent (h : LookedUp dev d dir name) (hd : d.DirsOk)
    (hio : ∀ n, d.vol.env.pgread n = true) (hdir : d.isDir dir = true)
    (hseen : AllSeen (d.inode dir) name) : d.entry (dir, name) = none := by
  obtain ⟨tick, hl⟩ := h
  obtain ⟨-, hno⟩ := (gas_lookup_eq_null_iff dev _ dir name).mp hl
  rw [Fs.entry_of_isDir hdir]
  by_contra hsome
  obtain ⟨ino, hino⟩ := Option.ne_none_iff_exists'.mp hsome
  obtain ⟨t, ht⟩ := List.mem_iff_getElem?.mp (mem_live.mp (mem_live_of_lookup hino))
  exact hno (comesTo_of_seen (hd dir hdir).1 hio ht (hseen t ino ht))

end Lookup

/-! ## 2. Calls, successful or not

One lemma a call, over all its exits.  The exits that undo something pass through states in which
the new inode is half made: all directories but that one are well formed (`Fs.DirsOkBut`). -/

/-- Right numbers, and well-formed directories in which no name is twice.  Link counts and the tree
are not part of it. -/
structure Fs.WellFormed (d : Fs Nat) : Prop where
  numbers : d.NumbersOk
  dirs : d.DirsOk

section Calls

variable {d d' : Fs Nat} {dir x k : Nat} {name : List UInt8} {mode : BitVec 16} {inode i : Inode}
  {v : Vol} {c : Ctx}

/-- A change within the frame needs nothing but the directories. -/
theorem Fs.Frame.wellFormed (hf : d.Frame d') (h : d.NumbersOk) (hd : d'.DirsOk) :
    d'.WellFormed ∧ SameVol d.vol d'.vol := ⟨⟨h.frame hf, hd⟩, hf.vol⟩

/-- An entry added, or not. -/
theorem Fs.WellFormed.add_link (h : d.WellFormed) (hdir : d.isDir dir = true) (hn : IsName name)
    (habs : d.entry (dir, name) = none) (hx : d.inodes x = some i) :
    let r := gas_add_link (d.ctx dir) name x
    (d.set dir r.1).WellFormed ∧ SameVol d.vol (d.set dir r.1).vol := by
  obtain ⟨-, hpos, hlt, -⟩ := h.numbers.ino x i hx
  obtain ⟨hframe, hkeeps, -⟩ := h.dirs.add_link hdir hn habs hpos hlt
  exact hframe.wellFormed h.numbers hkeeps.dirs

/-- A request changes nothing. -/
theorem Fs.WellFormed.tick (h : d.WellFormed) :
    Fs.WellFormed { d with vol := { d.vol with tick := d.vol.tick + 1 } } ∧
      SameVol d.vol { d.vol with tick := d.vol.tick + 1 } :=
  (Fs.frame_vol ⟨_, _, _, _, rfl⟩).wellFormed h.numbers h.dirs

/-- A new inode that is no directory, entered or not. -/
theorem Fs.WellFormed.enter_new (h : d.WellFormed) (hnew : NewInode d mode inode v)
    (hmode : S_ISDIR mode = false) (hv : BlockStep v c.v) (hs : DirStep inode c.inode)
    (hdir : d.isDir dir = true) (hn : IsName name) (habs : d.entry (dir, name) = none) :
    let d1 := d.set inode.i_ino c
    let r := gas_add_link (d1.ctx dir) name inode.i_ino
    (d1.set dir r.1).WellFormed ∧ SameVol d.vol (d1.set dir r.1).vol := by
  obtain ⟨hino, himode, hl, hdead⟩ := hs.fields
  have h1 : (d.set inode.i_ino c).WellFormed := by
    refine ⟨hnew.numbers h.numbers hv hino, h.dirs.put fun hd => ?_⟩
    rw [himode, hnew.isDir, hmode] at hd
    simp at hd
  have hspace := hnew.space_file hmode himode hl
  have hdir1 : (d.set inode.i_ino c).isDir dir = true := by
    have hmem : dir ∈ (d.set inode.i_ino c).space.dirs := by
      rw [hspace]
      exact hdir
    exact hmem
  have habs1 : (d.set inode.i_ino c).entry (dir, name) = none :=
    (congrFun (congrArg Space.entry hspace) (dir, name)).trans habs
  obtain ⟨h2, hv2⟩ := h1.add_link hdir1 hn habs1 (Function.update_self _ _ _)
  exact ⟨h2, (hnew.vol.trans hv.sameVol).trans hv2⟩

/-- `gas_mknod` and `gas_create`. -/
theorem Fs.WellFormed.new_nondir (h : d.WellFormed) (hmode : S_ISDIR mode = false)
    (hdir : d.isDir dir = true) (hn : IsName name) (habs : d.entry (dir, name) = none) (rdev : Nat) :
    (GasFs.new_nondir d dir name mode rdev).1.WellFormed ∧
      SameVol d.vol (GasFs.new_nondir d dir name mode rdev).1.vol := by
  rcases new_nondir_cases h.numbers hdir name mode rdev with ⟨-, e, he⟩ | ⟨inode, v, hnew, he⟩
  · rw [he]
    exact h.tick
  · rw [he]
    exact h.enter_new hnew hmode (c := ⟨v, inode, 0⟩) (BlockStep.refl v) (DirStep.refl inode) hdir hn
      habs

/-- All directories but one are well formed. -/
def Fs.DirsOkBut (d : Fs Nat) (x : Nat) : Prop :=
  ∀ j, j ≠ x → d.isDir j = true → DirOk (d.inode j) ∧ Uniq (d.inode j).slots

/-- All of them, and so all but one. -/
theorem Fs.DirsOk.but (h : d.DirsOk) (x : Nat) : d.DirsOkBut x := fun j _ => h j

/-- Whatever happens to the one left out. -/
theorem Fs.DirsOkBut.set (h : d.DirsOkBut x) (c : Ctx) : (d.set x c).DirsOkBut x := by
  intro j hj hd
  rw [Fs.set_inode_of_ne d hj]
  exact h j hj (by simpa only [Fs.isDir, Fs.set_inodes_of_ne hj] using hd)

theorem Fs.DirsOkBut.modify (h : d.DirsOkBut x) (f : Inode → Inode) : (d.modify x f).DirsOkBut x := by
  intro j hj hd
  rw [Fs.modify_inode_of_ne d hj]
  exact h j hj (by simpa only [Fs.isDir, Fs.modify, Function.update_of_ne hj] using hd)

/-- **An inode without links is evicted**, whatever it holds.  A directory that is evicted is no
directory any more, so it need not be well formed. -/
theorem Fs.NumbersOk.iput (h : d.NumbersOk) (hx : d.inodes x = some i) (hl : i.i_nlink = 0)
    (hd : d.DirsOkBut x) : (d.iput x).WellFormed ∧ SameVol d.vol (d.iput x).vol := by
  obtain ⟨hnum, hvol⟩ := h.evict hx hl
  unfold Fs.iput
  rw [if_pos (by rw [Fs.inode_of hx, hl])]
  exact ⟨⟨hnum, Fs.dirsOk_drop hd _⟩, hvol⟩

/-- `gas_symlink`, from each of its exits. -/
theorem gas_symlink_wellFormed (h : d.WellFormed) (hdir : d.isDir dir = true) (hn : IsName name)
    (habs : d.entry (dir, name) = none) (symname : List UInt8) :
    (gas_symlink d dir name symname).1.WellFormed ∧
      SameVol d.vol (gas_symlink d dir name symname).1.vol := by
  rcases gas_symlink_cases h.numbers hdir name symname with
    ⟨e, v, hv, he⟩ | ⟨inode, v, hnew, herr, hok⟩
  · rw [he]
    rcases hv with rfl | rfl
    · exact ⟨h, SameVol.refl _⟩
    · exact h.tick
  · obtain ⟨hv, hs⟩ := page_symlink_step ⟨v, inode, 0⟩ symname
    generalize page_symlink ⟨v, inode, 0⟩ symname = r at herr hok hv hs
    obtain ⟨c, _ | e⟩ := r
    · rw [hok c rfl]
      exact h.enter_new hnew (by decide) hv hs hdir hn habs
    · rw [herr c e rfl]
      obtain ⟨hino, himode, hl, hdead⟩ := hs.fields
      have hself : (d.set inode.i_ino c).inodes inode.i_ino = some c.inode :=
        Function.update_self _ _ _
      have hnum := (hnew.numbers h.numbers hv hino).frame (Fs.frame_modify hself dec_linkStep)
      have hgone : (inode_dec_link_count ((d.set inode.i_ino c).inode inode.i_ino)).i_nlink = 0 := by
        rw [Fs.set_inode, inode_dec_link_count, hl, hnew.nlink]
        rfl
      obtain ⟨hw, hv'⟩ := hnum.iput (Function.update_self _ _ _) hgone
        (((h.dirs.but _).set c).modify _)
      exact ⟨hw, (hnew.vol.trans hv.sameVol).trans hv'⟩

/-- A dropped reference is one to its own inode. -/
theorem Fs.iput_inodes_of_ne {j : Nat} (hj : j ≠ x) : (d.iput x).inodes j = d.inodes j := by
  unfold Fs.iput
  split
  · exact Function.update_of_ne hj _ _
  · rfl

theorem dec_nlink (i : Inode) : (inode_dec_link_count i).i_nlink = i.i_nlink - 1 := rfl

/-- **A half-made directory goes**, and the link that `gas_mkdir` took with it. -/
theorem Fs.NumbersOk.mkdir_fail (h : d.NumbersOk) (hx : d.inodes x = some i) (hl : i.i_nlink = 2)
    (hd : d.DirsOkBut x) (hdir : d.isDir dir = true) (hne : dir ≠ x) :
    (GasFs.mkdir_fail d dir x).WellFormed ∧ SameVol d.vol (GasFs.mkdir_fail d dir x).vol := by
  obtain ⟨idir, hi⟩ := Fs.isDir_some hdir
  have hnum := h.frame (Fs.frame_modify hx (dec_linkStep.comp dec_linkStep))
  have hgone : (inode_dec_link_count (inode_dec_link_count (d.inode x))).i_nlink = 0 := by
    rw [Fs.inode_of hx, dec_nlink, dec_nlink, hl]
    rfl
  obtain ⟨hw, hv⟩ := hnum.iput (Function.update_self _ _ _) hgone (hd.modify _)
  have hdir' : ((d.modify x (inode_dec_link_count ∘ inode_dec_link_count)).iput x).inodes dir =
      some idir := by
    rw [Fs.iput_inodes_of_ne hne]
    exact (Function.update_of_ne hne _ _).trans hi
  unfold GasFs.mkdir_fail
  rw [Fs.modify_modify]
  obtain ⟨hw', hv'⟩ := (Fs.frame_modify hdir' dec_linkStep).wellFormed hw.numbers
    (hw.dirs.keeps_modify hdir' dec_linkStep).dirs
  exact ⟨hw', hv.trans hv'⟩

/-- `gas_mkdir`, from each of its exits. -/
theorem gas_mkdir_wellFormed (h : d.WellFormed) (hmode : S_ISDIR (S_IFDIR ||| mode) = true)
    (hdir : d.isDir dir = true) (hn : IsName name) (habs : d.entry (dir, name) = none) :
    (gas_mkdir d dir name mode).1.WellFormed ∧ SameVol d.vol (gas_mkdir d dir name mode).1.vol := by
  obtain ⟨i, hi⟩ := Fs.isDir_some hdir
  obtain ⟨-, hpos, hlt, -⟩ := h.numbers.ino dir i hi
  rcases gas_mkdir_cases h.numbers hdir name mode with ⟨-, e, he⟩ | ⟨d0, inode, v, rfl, hnew, herr, hok⟩
  · rw [he]
    exact h.tick
  have hframe := Fs.frame_modify hi inc_linkStep
  have hnum0 := h.numbers.frame hframe
  have hdirs0 := (h.dirs.keeps_modify hi inc_linkStep).dirs
  have hdir0 : (d.modify dir inode_inc_link_count).isDir dir = true := (hframe.isDir dir).trans hdir
  have hentry0 : (d.modify dir inode_inc_link_count).entry = d.entry :=
    congrArg Space.entry (Fs.space_modify hi inc_linkStep)
  generalize d.modify dir inode_inc_link_count = d0 at *
  have hne := hnew.ne hdir0
  have hv := gas_make_empty_blockStep ⟨v, inode_inc_link_count inode, 0⟩ dir
  obtain ⟨hs, -⟩ := gas_make_empty_spec (c := ⟨v, inode_inc_link_count inode, 0⟩)
    (show (inode_inc_link_count inode).i_size = 0 from hnew.size)
    (fun n a _ _ => show (inode_inc_link_count inode).pages n a = 0 from hnew.pages n a) dir
  generalize hm : gas_make_empty ⟨v, inode_inc_link_count inode, 0⟩ dir = r at herr hok hv hs
  obtain ⟨c, o⟩ := r
  have hino : c.inode.i_ino = inode.i_ino := hs.fields.1
  have hl2 : c.inode.i_nlink = 2 := by
    rw [hs.fields.2.2.1, inode_inc_link_count, hnew.nlink]
    rfl
  have hnum1 := hnew.numbers hnum0 hv hino
  have hdir1 : (d0.set inode.i_ino c).isDir dir = true := by
    simpa only [Fs.isDir, Fs.set_inodes_of_ne hne] using hdir0
  have hx1 : (d0.set inode.i_ino c).inodes inode.i_ino = some c.inode := Function.update_self _ _ _
  cases o with
  | some e =>
    rw [herr c e rfl]
    obtain ⟨hw, hv'⟩ := hnum1.mkdir_fail hx1 hl2 ((hdirs0.but _).set c) hdir1 hne
    exact ⟨hw, ((hframe.vol.trans hnew.vol).trans hv.sameVol).trans hv'⟩
  | none =>
    obtain ⟨-, hdirs1, -, hvol1, -, -, hspace1⟩ := hnew.directory hnum0 hdirs0 hmode hdir0 hm
    obtain ⟨herr', hok'⟩ := hok c rfl
    rw [hino] at herr' hok'
    have habs1 : (d0.set inode.i_ino c).entry (dir, name) = none := by
      have he : (d0.set inode.i_ino c).entry = _ := congrArg Space.entry hspace1
      rw [he]
      simp only [if_neg hne, hentry0, habs]
    obtain ⟨hframe2, hkeeps2, -⟩ := hdirs1.add_link hdir1 hn habs1 hnew.pos hnew.lt
    generalize gas_add_link ((d0.set inode.i_ino c).ctx dir) name inode.i_ino = r at *
    obtain ⟨c', _ | e⟩ := r
    · rw [hok' c' rfl]
      obtain ⟨hw, hv2⟩ := hframe2.wellFormed hnum1 hkeeps2.dirs
      exact ⟨hw, (hframe.vol.trans hvol1).trans hv2⟩
    · rw [herr' c' e rfl]
      have hx2 : ((d0.set inode.i_ino c).set dir c').inodes inode.i_ino = some c.inode :=
        (Fs.set_inodes_of_ne hne.symm).trans hx1
      obtain ⟨hw, hv2⟩ := (hnum1.frame hframe2).mkdir_fail hx2 hl2 (hkeeps2.dirs.but _)
        ((hframe2.isDir dir).trans hdir1) hne
      exact ⟨hw, ((hframe.vol.trans hvol1).trans hframe2.vol).trans hv2⟩

/-- `gas_link`. -/
theorem gas_link_wellFormed (h : d.WellFormed) (hx : d.inodes x = some i) (hdir : d.isDir dir = true)
    (hn : IsName name) (habs : d.entry (dir, name) = none) :
    (gas_link d x dir name).1.WellFormed ∧ SameVol d.vol (gas_link d x dir name).1.vol := by
  have hf := inc_linkStep.comp (ctime_linkStep d.vol.now)
  have hframe := Fs.frame_modify hx hf
  obtain ⟨h1, hv1⟩ := hframe.wellFormed h.numbers (h.dirs.keeps_modify hx hf).dirs
  have hentry1 := congrFun (congrArg Space.entry (Fs.space_modify hx hf)) (dir, name)
  obtain ⟨i1, hx1, -⟩ := hframe.after hx
  unfold gas_link
  dsimp only
  rw [Fs.modify_modify]
  generalize d.modify x (inode_inc_link_count ∘ fun i => { i with i_ctime := d.vol.now }) = d1 at *
  obtain ⟨h2, hv2⟩ := h1.add_link ((hframe.isDir dir).trans hdir) hn (hentry1.trans habs) hx1
  unfold add_nondir
  rw [Fs.inode_of hx1, (h1.numbers.ino x i1 hx1).1]
  generalize gas_add_link (d1.ctx dir) name x = r at h2 hv2
  obtain ⟨c, _ | e⟩ := r
  · exact ⟨h2, hv1.trans hv2⟩
  · exact ⟨h2, hv1.trans hv2⟩

/-- `gas_unlink` and `gas_rmdir`. -/
theorem gas_unlink_wellFormed (h : d.WellFormed) (hx : d.inodes x = some i) (hdir : d.isDir dir = true)
    (hn : IsName name) : (gas_unlink d dir name x).1.WellFormed ∧
      SameVol d.vol (gas_unlink d dir name x).1.vol := by
  obtain ⟨hframe, hdirs, -⟩ := h.dirs.unlink hn hdir hx
  exact hframe.wellFormed h.numbers hdirs

/-- `gas_rmdir` is `gas_unlink` and two links. -/
theorem gas_rmdir_wellFormed (h : d.WellFormed) (hx : d.inodes x = some i) (hdir : d.isDir dir = true)
    (hn : IsName name) : (gas_rmdir d dir name x).1.WellFormed ∧
      SameVol d.vol (gas_rmdir d dir name x).1.vol := by
  obtain ⟨hframe, hdirs, -⟩ := h.dirs.rmdir hn hdir hx
  exact hframe.wellFormed h.numbers hdirs

/-- The caller does not matter. -/
theorem Fs.WellFormed.caller (h : d.WellFormed) (env : Env) :
    Fs.WellFormed { d with vol := { d.vol with env := env } } where
  numbers :=
    ⟨{ h.numbers.geometry with }, h.numbers.limit, h.numbers.zero, h.numbers.ino⟩
  dirs := h.dirs

end Calls

/-! ## 3. Runs

`AskedRun` is what the VFS does: a lookup, then the call the answer allows.  The step lemma is the
previous section, the run an induction. -/

/-- A new name is asked for after a lookup did not find it.  This is what the VFS knows when it asks
for a new name: its own lookup. -/
structure AskedNew (dev : DevCodec) (d : Fs Nat) (dir : Nat) (name : List UInt8) : Prop where
  isName : IsName name
  live : d.isDir dir = true
  lookup : LookedUp dev d dir name

/-- A name is removed after a lookup found it. -/
structure AskedOld (dev : DevCodec) (d : Fs Nat) (dir : Nat) (name : List UInt8) (inode : Nat) :
    Prop where
  isName : IsName name
  live : d.isDir dir = true
  lookup : ∃ tick, (gas_lookup dev { d with vol := { d.vol with tick := tick } } dir name).1 =
    .null (some inode)
  inCore : (d.inodes inode).isSome = true

/-- What the VFS asks for. -/
def NameOp.Asked (dev : DevCodec) (d : Fs Nat) : NameOp → Prop
  | .mknod dir name mode _ => AskedNew dev d dir name ∧ S_ISDIR mode = false
  | .create dir name mode => AskedNew dev d dir name ∧ S_ISDIR mode = false
  | .symlink dir name _ => AskedNew dev d dir name
  | .link inode dir name => AskedNew dev d dir name ∧ (d.inodes inode).isSome = true ∧
      S_ISDIR (d.inode inode).i_mode = false
  | .mkdir dir name mode => AskedNew dev d dir name ∧ mode &&& S_IFMT = 0
  | .unlink dir name inode => AskedOld dev d dir name inode
  | .rmdir dir name inode => AskedOld dev d dir name inode
  | .iput inode => (d.inodes inode).isSome = true
  | .caller env => ∀ n, env.pgread n = true

/-- The name a call enters, and where. -/
def NameOp.newName : NameOp → Option (Nat × List UInt8)
  | .mknod dir name _ _ => some (dir, name)
  | .create dir name _ => some (dir, name)
  | .symlink dir name _ => some (dir, name)
  | .link _ dir name => some (dir, name)
  | .mkdir dir name _ => some (dir, name)
  | _ => none

/-- A lookup of the new name sees every record that has it.  Calls that enter no name have nothing
to see. -/
def NameOp.Seen (d : Fs Nat) (op : NameOp) : Prop :=
  ∀ dir name, op.newName = some (dir, name) → AllSeen (d.inode dir) name

/-- Calls that the VFS asks for and `P` admits, successful or not.  The run may go on behind a
failure, and what the failure left is then the state of the next call. -/
inductive AskedRun (dev : DevCodec) (P : Fs Nat → NameOp → Prop) (d₀ : Fs Nat) : Fs Nat → Prop
  | start : AskedRun dev P d₀ d₀
  | step {d : Fs Nat} (h : AskedRun dev P d₀ d) (op : NameOp) (hasked : op.Asked dev d) (hp : P d op) :
      AskedRun dev P d₀ (op.call d).1

section Runs

variable {dev : DevCodec} {d d₀ : Fs Nat} {op : NameOp}

/-- **One call keeps names unique.** -/
theorem Fs.WellFormed.call (h : d.WellFormed) (hio : ∀ n, d.vol.env.pgread n = true)
    (hasked : op.Asked dev d) (hseen : op.Seen d) :
    (op.call d).1.WellFormed ∧ ∀ n, (op.call d).1.vol.env.pgread n = true := by
  have hreads : ∀ {d' : Fs Nat}, d'.WellFormed ∧ SameVol d.vol d'.vol →
      d'.WellFormed ∧ ∀ n, d'.vol.env.pgread n = true := fun hw => by
    obtain ⟨hw, hv⟩ := hw
    refine ⟨hw, fun n => ?_⟩
    rw [hv.env]
    exact hio n
  have habs : ∀ {dir name}, AskedNew dev d dir name → op.newName = some (dir, name) →
      d.entry (dir, name) = none := fun hnew hname =>
    hnew.lookup.absent h.dirs hio hnew.live (hseen _ _ hname)
  cases op with
  | mknod dir name mode rdev =>
    obtain ⟨hnew, hmode⟩ := hasked
    exact hreads (h.new_nondir hmode hnew.live hnew.isName (habs hnew rfl) rdev)
  | create dir name mode =>
    obtain ⟨hnew, hmode⟩ := hasked
    exact hreads (h.new_nondir hmode hnew.live hnew.isName (habs hnew rfl) 0)
  | symlink dir name symname =>
    exact hreads (gas_symlink_wellFormed h hasked.live hasked.isName (habs hasked rfl) symname)
  | link inode dir name =>
    obtain ⟨hnew, hx, -⟩ := hasked
    obtain ⟨i, hi⟩ := Option.isSome_iff_exists.mp hx
    exact hreads (gas_link_wellFormed h hi hnew.live hnew.isName (habs hnew rfl))
  | mkdir dir name mode =>
    obtain ⟨hnew, hmode⟩ := hasked
    exact hreads (gas_mkdir_wellFormed h (S_ISDIR_mkdir hmode) hnew.live hnew.isName (habs hnew rfl))
  | unlink dir name inode =>
    obtain ⟨i, hi⟩ := Option.isSome_iff_exists.mp hasked.inCore
    exact hreads (gas_unlink_wellFormed h hi hasked.live hasked.isName)
  | rmdir dir name inode =>
    obtain ⟨i, hi⟩ := Option.isSome_iff_exists.mp hasked.inCore
    exact hreads (gas_rmdir_wellFormed h hi hasked.live hasked.isName)
  | iput inode =>
    obtain ⟨i, hi⟩ := Option.isSome_iff_exists.mp hasked
    by_cases hl : i.i_nlink = 0
    · exact hreads (h.numbers.iput hi hl (h.dirs.but _))
    · have hstay : d.iput inode = d := by
        unfold Fs.iput
        rw [Fs.inode_of hi, if_neg hl]
      exact ⟨by rw [NameOp.call, hstay]; exact h, fun n => by rw [NameOp.call, hstay]; exact hio n⟩
  | caller env => exact ⟨h.caller env, hasked⟩

/-- **So does every run** whose lookups see what they ask for. -/
theorem AskedRun.wellFormed (hrun : AskedRun dev (fun d op => op.Seen d) d₀ d) (h₀ : d₀.WellFormed)
    (hio : ∀ n, d₀.vol.env.pgread n = true) :
    d.WellFormed ∧ ∀ n, d.vol.env.pgread n = true := by
  induction hrun with
  | start => exact ⟨h₀, hio⟩
  | step _ op hasked hseen ih => exact ih.1.call ih.2 hasked hseen

end Runs

/-! ## 4. A crowded directory

To show the condition is met, and missed, a directory is filled with names of one file, one call
after the other.  `Fs.Crowded` is the state after `n` of them. -/

section Crowded

variable {dev : DevCodec} {d : Fs Nat} {dir f k : Nat} {name : List UInt8} {i : Inode}
  {t : SlotTable.Table (List UInt8) Nat}

/-- A lookup that sees no record of a name does not find it. -/
theorem lookedUp_of_unseen (h : d.WellFormed) (hdir : d.isDir dir = true) (hb : Blank (d.inode dir))
    (hio : ∀ n, d.vol.env.pgread n = true) (hn : IsName name)
    (hno : ∀ t ino : Nat, (d.inode dir).slots[t]? = some (some (name, ino)) → ¬Seen (d.inode dir) t) :
    AskedNew dev d dir name := by
  refine ⟨hn, hdir, d.vol.tick, (gas_lookup_eq_null_iff dev _ dir name).mpr ⟨?_, ?_⟩⟩
  · have hle := hn.le
    rw [GAS_MAX_NAME_LEN]
    omega
  · obtain ⟨hok, hu⟩ := h.dirs dir hdir
    rw [← gas_inode_by_name_eq_zero_iff]
    rcases inode_by_name_cases (c := d.ctx dir) hok hb hu hio hn with ⟨t, ino, hs, hseen, -⟩ | ⟨-, h0⟩
    · exact absurd hseen (hno t ino hs)
    · exact h0

/-- A lookup that sees the record of a name finds its inode. -/
theorem askedOld_of_seen (h : d.WellFormed) (hdir : d.isDir dir = true) (hb : Blank (d.inode dir))
    (hio : ∀ n, d.vol.env.pgread n = true) (hn : IsName name) {t : Nat}
    (hs : (d.inode dir).slots[t]? = some (some (name, f))) (hseen : Seen (d.inode dir) t)
    (hf : d.inodes f = some i) : AskedOld dev d dir name f := by
  refine ⟨hn, hdir, ⟨d.vol.tick, ?_⟩, by rw [hf]; rfl⟩
  obtain ⟨hok, hu⟩ := h.dirs dir hdir
  have hle := hn.le
  have hfound : (gas_inode_by_name (d.ctx dir) name).1 = f := by
    rcases inode_by_name_cases (c := d.ctx dir) hok hb hu hio hn with ⟨s, ino, hs', -, h1⟩ | ⟨hno, -⟩
    · obtain rfl := hu.slot_inj hs hs'
      rw [Fs.ctx_inode, hs] at hs'
      rw [h1]
      simpa using hs'.symm
    · exact absurd hseen (hno t f hs)
  obtain ⟨i', hi'⟩ := d.set_some dir (gas_inode_by_name (d.ctx dir) name).2 hf
  have hlen : ¬GAS_MAX_NAME_LEN ≤ name.length := by
    rw [GAS_MAX_NAME_LEN]
    omega
  have hget : gas_iget dev (d.set dir (gas_inode_by_name (d.ctx dir) name).2).inodes
      (d.set dir (gas_inode_by_name (d.ctx dir) name).2).vol f =
      (.ok i', (d.set dir (gas_inode_by_name (d.ctx dir) name).2).vol) := by
    rw [gas_iget, hi']
  change (gas_lookup dev d dir name).1 = _
  simp only [gas_lookup, if_neg hlen, hfound, if_neg (ino_ne_zero hs), hget]

/-- A directory with the table, on a volume with `k` blocks to spare, and a file to link to.  The
table is given as a whole, so the slots can be computed. -/
structure Fs.Crowded (d : Fs Nat) (dir f k : Nat) (t : SlotTable.Table (List UInt8) Nat) : Prop where
  wellFormed : d.WellFormed
  room : Roomy d.vol k
  live : d.isDir dir = true
  slots : (d.inode dir).slots = t
  blank : Blank (d.inode dir)
  file : ∃ i, d.inodes f = some i ∧ S_ISDIR i.i_mode = false

/-- The file is not the directory. -/
theorem Fs.Crowded.ne (h : d.Crowded dir f k t) : dir ≠ f := by
  rintro rfl
  obtain ⟨i, hi, hfile⟩ := h.file
  have hlive := h.live
  rw [Fs.isDir_of hi, hfile] at hlive
  simp at hlive

/-- A link to the file is entered in the first free slot. -/
theorem Fs.Crowded.link_runs (h : d.Crowded dir f (k + 1) t) (hn : IsName name)
    (habs : locate (t.take (hole t)) name = none) (hshort : hole t < 90) :
    let d' := (gas_link d f dir name).1
    Roomy d'.vol k ∧ d.Frame d' ∧ (d'.inode dir).slots = put t (name, f) ∧ Blank (d'.inode dir) := by
  obtain ⟨i, hi, -⟩ := h.file
  have hpage : (slotPos (hole t)).1 < DIRECT := by
    rw [slotPos, DIRECT]
    omega
  obtain ⟨d', hd', hroom, hframe, hslots, hblank⟩ := gas_link_runs h.wellFormed.numbers h.room hi h.ne
    h.live (h.wellFormed.dirs dir h.live).1 hn (by rw [h.slots]; exact habs)
    (by rw [h.slots]; exact hpage)
  rw [h.slots] at hslots
  rw [hd']
  exact ⟨hroom, hframe, hslots, hblank h.blank⟩

/-- **A name that is absent can be looked up and entered.** -/
theorem Fs.Crowded.link (h : d.Crowded dir f (k + 1) t) (dev : DevCodec) (hn : IsName name)
    (habs : locate t name = none) (hshort : hole t < 90) :
    NameOp.Asked dev d (.link f dir name) ∧ NameOp.Seen d (.link f dir name) ∧
      (gas_link d f dir name).1.Crowded dir f k (put t (name, f)) := by
  obtain ⟨i, hi, hfile⟩ := h.file
  have hno : ∀ s ino : Nat, (d.inode dir).slots[s]? ≠ some (some (name, ino)) := by
    rw [h.slots]
    exact not_slot_of_locate_none habs
  have hentry : d.entry (dir, name) = none := by
    rw [Fs.entry_of_isDir h.live, h.slots]
    exact locate_eq_none_iff.mp habs
  obtain ⟨hroom, hframe, hslots, hblank⟩ := h.link_runs hn (locate_take_none habs _) hshort
  obtain ⟨hw, -⟩ := gas_link_wellFormed h.wellFormed hi h.live hn hentry
  obtain ⟨i', hi', he⟩ := hframe.after hi
  have hmode : i'.i_mode = i.i_mode := congrArg (·.2.1) he
  refine ⟨⟨lookedUp_of_unseen h.wellFormed h.live h.blank h.room.pgread hn fun s ino hs => ?_, ?_, ?_⟩,
    fun dir' name' he s ino hs => ?_, hw, hroom, (hframe.isDir dir).trans h.live, hslots, hblank, i', hi',
    by rw [hmode, hfile]⟩
  · exact absurd hs (hno s ino)
  · rw [hi]
    rfl
  · rw [Fs.inode_of hi]
    exact hfile
  · obtain ⟨rfl, rfl⟩ := Prod.mk.inj (Option.some.inj he)
    exact absurd hs (hno s ino)

/-- **A new directory with the first name in it.** -/
theorem crowded_start (dev : DevCodec) {P : Fs Nat → NameOp → Prop} (hP : ∀ d op, op.Seen d → P d op) :
    ∃ d₀ d dir p f, d₀.WellFormed ∧ (∀ n, d₀.vol.env.pgread n = true) ∧ AskedRun dev P d₀ d ∧
      d.Crowded dir f 244 (names_table dir p (fun _ => f) 1) := by
  obtain ⟨d₀, hfresh, hio, hroom, hspare, hroot, hslots, hl⟩ := fresh_megabyte
  have ha : IsName [97] := ⟨by decide, by decide, by decide⟩
  obtain ⟨d1, dir, -, hc1, hroom1, hspare1, -, -, hdir, hblank, hslots1, -⟩ :=
    NameRun.start.first_mkdir (P := fun _ _ => True) (k := 245) (m := 61) trivial hfresh.consistent
      hroom hspare hroot hslots hl ha (by decide) (by decide)
  have h1 : d1.WellFormed := ⟨hc1.numbers, hc1.named.dirs⟩
  have hn : IsName (nth_name 0) := isName_nth (by omega)
  have htable : (d1.inode dir).slots = names_table dir GAS_ROOT_INO (fun _ => 0) 0 := hslots1
  have habs : locate (d1.inode dir).slots (nth_name 0) = none := by
    rw [htable]
    exact names_table_absent _ _ _ (by omega)
  have hshort : (slotPos (hole (d1.inode dir).slots)).1 < DIRECT := by
    rw [htable, hole_of_full (names_table_full _ _ _ 0), length_names_table]
    decide
  have hno : ∀ s ino : Nat, (d1.inode dir).slots[s]? ≠ some (some (nth_name 0, ino)) :=
    not_slot_of_locate_none habs
  have hreg : S_ISDIR S_IFREG = false := by decide
  obtain ⟨d2, f, hcall, hroom2, hdir2, hslots2, hblank2, i, hi, hmode⟩ :=
    new_nondir_runs h1.numbers hroom1 hspare1 hdir (h1.dirs dir hdir).1 hn (locate_take_none habs _)
      hshort 0
  have hasked : NameOp.Asked dev d1 (.create dir (nth_name 0) S_IFREG) :=
    ⟨lookedUp_of_unseen h1 hdir hblank hroom1.pgread hn fun s ino hs => absurd hs (hno s ino), hreg⟩
  have hseen : NameOp.Seen d1 (.create dir (nth_name 0) S_IFREG) := by
    intro dir' name' he s ino hs
    obtain ⟨rfl, rfl⟩ := Prod.mk.inj (Option.some.inj he)
    exact absurd hs (hno s ino)
  have hrun := AskedRun.start.step _ hasked (hP _ _ hseen)
  obtain ⟨hw, -⟩ := h1.call hroom1.pgread hasked hseen
  have hd2 : (NameOp.call d1 (.create dir (nth_name 0) S_IFREG)).1 = d2 := congrArg Prod.fst hcall
  rw [hd2] at hrun hw
  refine ⟨d1, d2, dir, GAS_ROOT_INO, f, h1, hroom1.pgread, hrun, hw, hroom2, hdir2, ?_,
    hblank2 hblank, i, hi, hmode.trans hreg⟩
  rw [hslots2, hslots1, names_table_succ]
  rfl

/-- **Up to 88 names of one file in a directory**, each looked up before.  The directory has six
pages of records then. -/
theorem crowded_run (dev : DevCodec) {P : Fs Nat → NameOp → Prop} (hP : ∀ d op, op.Seen d → P d op) :
    ∀ n ≤ 87, ∃ d₀ d dir p f, d₀.WellFormed ∧ (∀ n, d₀.vol.env.pgread n = true) ∧
      AskedRun dev P d₀ d ∧ d.Crowded dir f (244 - n) (names_table dir p (fun _ => f) (n + 1)) := by
  intro n
  induction n with
  | zero => exact fun _ => crowded_start dev hP
  | succ n ih =>
    intro hle
    obtain ⟨d₀, d, dir, p, f, h₀, hio, hrun, hd⟩ := ih (by omega)
    have hk : 244 - n = 244 - (n + 1) + 1 := by omega
    rw [hk] at hd
    obtain ⟨hasked, hseen, hd'⟩ := hd.link dev (isName_nth (i := n + 1) (by omega))
      (names_table_absent _ _ _ (by omega))
      (by rw [hole_of_full (names_table_full _ _ _ _), length_names_table]; omega)
    refine ⟨d₀, _, dir, p, f, h₀, hio, hrun.step _ hasked (hP _ _ hseen), ?_⟩
    rw [names_table_succ]
    exact hd'

end Crowded

/-! ## 5. No name twice

The result, a directory in which it can be used, and the run that enters a name again: 76 records,
the first removed, the last asked for. -/

section Twice

variable {dev : DevCodec} {d d₀ : Fs Nat}

/-- **No name is twice in one directory**, along every run of calls that succeed or fail, as long as a
lookup sees every record of a name that is asked for. -/
theorem no_name_twice (h₀ : d₀.WellFormed) (hio : ∀ n, d₀.vol.env.pgread n = true)
    (hrun : AskedRun dev (fun d op => op.Seen d) d₀ d) {dir t t' x x' : Nat} {name : List UInt8}
    (h : d.LiveEntry dir t name x) (h' : d.LiveEntry dir t' name x') : t' = t :=
  h.unique h' (hrun.wellFormed h₀ hio).1.dirs

/-- A file that was linked twice has two names. -/
theorem no_name_twice_crowded : ∃ (d : Fs Nat) (dir f : Nat), d.LiveEntry dir 2 (nth_name 0) f ∧
    d.LiveEntry dir 3 (nth_name 1) f ∧
    ∀ t x, d.LiveEntry dir t (nth_name 0) x → t = 2 := by
  obtain ⟨d₀, d, dir, p, f, h₀, hio, hrun, hd⟩ :=
    crowded_run linux_dev (P := fun d op => op.Seen d) (fun _ _ h => h) 1 (by omega)
  have h0 : d.LiveEntry dir 2 (nth_name 0) f := ⟨hd.live, by rw [hd.slots]; rfl⟩
  have h1 : d.LiveEntry dir 3 (nth_name 1) f := ⟨hd.live, by rw [hd.slots]; rfl⟩
  exact ⟨d, dir, f, h0, h1, fun t x h => no_name_twice h₀ hio hrun h0 h⟩

/-- 76 records take up five pages and one record. -/
theorem size_of_length {inode : Inode} (hok : DirOk inode) (h : inode.slots.length = 76) :
    inode.i_size = 20740 := by
  obtain ⟨P, m, hdim⟩ := hok.dims
  have h1 := hdim.pos
  have h2 := hdim.le
  have h3 := hdim.nslots
  have h4 := hdim.size
  rw [length_slots] at h
  omega

/-- **A name is entered twice.**  The directory has 76 records, the last of which a lookup does not
see; its name is entered again where the first name was removed. -/
theorem name_twice : ¬∀ d₀ d : Fs Nat, d₀.WellFormed → (∀ n, d₀.vol.env.pgread n = true) →
    AskedRun linux_dev (fun _ _ => True) d₀ d → ∀ (dir t t' x x' : Nat) (name : List UInt8),
      d.LiveEntry dir t name x → d.LiveEntry dir t' name x' → t' = t := by
  intro hclaim
  obtain ⟨d₀, d, dir, p, f, h₀, hio, hrun, hd⟩ :=
    crowded_run linux_dev (P := fun _ _ => True) (fun _ _ _ => trivial) 73 (by omega)
  obtain ⟨i, hi, hfile⟩ := hd.file
  have hn0 : IsName (nth_name 0) := isName_nth (by omega)
  have hn : IsName (nth_name 73) := isName_nth (by omega)
  have hs0 : (d.inode dir).slots[2]? = some (some (nth_name 0, f)) := by
    rw [hd.slots]
    rfl
  -- the first name is found and removed
  have hasked0 : NameOp.Asked linux_dev d (.unlink dir (nth_name 0) f) := by
    refine askedOld_of_seen hd.wellFormed hd.live hd.blank hd.room.pgread hn0 hs0 ?_ hi
    rw [Seen, size_of_length (hd.wellFormed.dirs dir hd.live).1 (by rw [hd.slots]; simp)]
    decide
  obtain ⟨d1, hcall1, hroom1, hframe1, hslots1, hblank1⟩ :=
    gas_unlink_runs (k := 170) hd.wellFormed.dirs hd.room hi hd.ne hd.live hn0 hs0 (by decide)
  have hrun1 := hrun.step _ hasked0 trivial
  obtain ⟨hw1, -⟩ := gas_unlink_wellFormed hd.wellFormed hi hd.live hn0
  have hd1 : (NameOp.call d (.unlink dir (nth_name 0) f)).1 = d1 := congrArg Prod.fst hcall1
  rw [hd1] at hrun1
  rw [hcall1] at hw1
  obtain ⟨i1, hi1, he⟩ := hframe1.after hi
  have hfile1 : S_ISDIR i1.i_mode = false := by
    rw [show i1.i_mode = i.i_mode from congrArg (·.2.1) he, hfile]
  rw [hd.slots] at hslots1
  have hcrowd : d1.Crowded dir f 170 _ := ⟨hw1, hroom1, (hframe1.isDir dir).trans hd.live, hslots1,
    hblank1 hd.blank, i1, hi1, hfile1⟩
  have hs75 : (d1.inode dir).slots[75]? = some (some (nth_name 73, f)) := by
    rw [hslots1]
    rfl
  -- the last one is not found
  obtain ⟨hok1, hu1⟩ := hw1.dirs dir hcrowd.live
  have hasked : NameOp.Asked linux_dev d1 (.link f dir (nth_name 73)) := by
    refine ⟨lookedUp_of_unseen hw1 hcrowd.live hcrowd.blank hroom1.pgread hn fun s ino hs hseen => ?_,
      by rw [hi1]; rfl, by rw [Fs.inode_of hi1]; exact hfile1⟩
    obtain rfl := hu1.slot_inj hs75 hs
    rw [Seen, size_of_length hok1 (by rw [hslots1]; simp)] at hseen
    exact absurd hseen (by decide)
  have hhole : hole ((names_table dir p (fun _ => f) 74).set 2 none) = 2 := rfl
  obtain ⟨-, hframe2, hslots2, -⟩ := hcrowd.link_runs (k := 169) hn (by rw [hhole]; rfl)
    (by rw [hhole]; decide)
  have hlive2 := (hframe2.isDir dir).trans hcrowd.live
  have htwice := hclaim d₀ _ h₀ hio (hrun1.step _ hasked trivial) dir 75 2 f f (nth_name 73)
    ⟨hlive2, ?_⟩ ⟨hlive2, ?_⟩
  · exact absurd htwice (by decide)
  · rw [NameOp.call, hslots2, getElem?_put, hhole, if_neg (by decide)]
    rfl
  · rw [NameOp.call, hslots2, getElem?_put, hhole, if_pos rfl]

end Twice

end GasFs
