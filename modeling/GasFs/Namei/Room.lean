/-
# Calls that succeed

`gas_mkdir` fails for lack of an inode number, of a block or of memory, on a failed read, or on a name
that is there already.  While there are numbers (`SpareInodes`) and blocks (`Roomy`) left, it enters
every absent name (`gas_mkdir_runs`).

`gas_rmdir` of a directory needs fewer reads the fewer pages of it can be read: when none can,
`gas_empty_dir` finds nothing, and the directory is removed with all it holds
(`gas_rmdir_unread`).

The statements are about success, so each asks for room of both kinds and for a kernel that refuses
nothing (`Roomy`), and tells how much of it is left.  With that a run of known calls can be shown to
succeed to its end, one call after another, without unfolding any of them.

The directories in this file are short: the hole for a new record lies on one of the pages with a
direct block, so that at most one block is taken for it.
-/
import GasFs.Namei.Calls
import GasFs.Statfs

namespace GasFs

open Bytes SlotTable Namespace

/-! ## 1. Free inode numbers

Free numbers are counted by a list without repetitions, as free blocks are by `Roomy`.  A new inode
takes one number, and the list loses it. -/

/-- At least `k` inode numbers are free.  A list without repetitions counts, and can be shortened by
one. -/
def SpareInodes (v : Vol) (k : Nat) : Prop :=
  ∃ l : List Nat, l.Nodup ∧ k ≤ l.length ∧ ∀ n ∈ l, n < v.inoLimit ∧ v.inodeInUse n = false

section Spare

variable {d : Fs Nat} {v v' : Vol} {k size n : Nat} {mode : BitVec 16} {inode : Inode}

/-- A free number is one that `gas_new_inode` can find. -/
theorem SpareInodes.not_full (h : SpareInodes v (k + 1)) (hg : Geometry v) : ¬v.IamFull := by
  intro hfull
  obtain ⟨l, -, hlen, hl⟩ := h
  obtain ⟨n, hn⟩ := List.exists_mem_of_length_pos (lt_of_lt_of_le (Nat.succ_pos k) hlen)
  obtain ⟨hlt, hfree⟩ := hl n hn
  rw [Vol.inoLimit] at hlt
  have hset := hfull (n / 32768) (by omega) (n % 32768) (by rw [hg.bits_per_block]; omega)
  rw [Vol.inodeInUse, hset] at hfree
  exact absurd hfree (by simp)

/-- The same bits leave the same numbers. -/
theorem SpareInodes.same (h : SpareInodes v k) (hv : SameVol v v')
    (hb : ∀ n, v'.inodeInUse n = v.inodeInUse n) : SpareInodes v' k := by
  obtain ⟨l, hnd, hlen, hl⟩ := h
  refine ⟨l, hnd, hlen, fun n hn => ?_⟩
  rw [Vol.inoLimit, hv.sbi, hb]
  exact hl n hn

/-- A new inode takes one of the free numbers. -/
theorem NewInode.spare (h : NewInode d mode inode v) (hs : SpareInodes d.vol (k + 1)) :
    SpareInodes v k := by
  obtain ⟨l, hnd, hlen, hl⟩ := hs
  refine ⟨l.erase inode.i_ino, hnd.erase _, ?_, fun n hn => ?_⟩
  · have := List.length_erase_add_one (a := inode.i_ino) (l := l)
    by_cases hmem : inode.i_ino ∈ l
    · have := this hmem
      omega
    · rw [List.erase_of_not_mem hmem]
      omega
  · obtain ⟨hne, hmem⟩ := hnd.mem_erase_iff.mp hn
    obtain ⟨hlt, hfree⟩ := hl n hmem
    refine ⟨?_, by rw [h.bits, if_neg hne]; exact hfree⟩
    rw [Vol.inoLimit, h.vol.sbi]
    exact hlt

/-- It takes no block. -/
theorem NewInode.roomy (h : NewInode d mode inode v) (hr : Roomy d.vol k) : Roomy v k := by
  have huse : ∀ b, v.inUse b = d.vol.inUse b := Vol.inUse_congr h.vol.sbi h.bam
  obtain ⟨l, hnd, hlen, hl⟩ := hr.free
  refine ⟨⟨h.vol.geometry hr.geometry.toGeometry, ?_⟩, fun b hb hz => ?_, ?_, ?_, ?_,
    l, hnd, hlen, fun b hb => ?_⟩
  · rw [h.vol.sbi]
    exact hr.geometry.nblocks_le
  · rw [h.vol.sbi] at hb
    rw [Vol.InZone, h.vol.sbi] at hz
    rw [huse]
    exact hr.padded b hb hz
  · rw [h.vol.sbi]
    exact hr.direct
  · rw [h.vol.env]
    exact hr.pgread
  · rw [h.vol.env]
    exact hr.mem
  · rw [h.vol.sbi, huse]
    exact hl b hb

/-- **What is free on a new file system**: the blocks behind the root directory, and all numbers from
2 on. -/
theorem ShowsImage.free (h : ShowsImage size v n) (hsize : (filesys_param size).blk_cnt ≤ 1073741824)
    (hio : ∀ n, v.env.pgread n = true) (hmem : ∀ n, v.env.mem n = true) :
    Roomy v ((filesys_param size).blk_cnt - (n + 5)) ∧
      SpareInodes v ((filesys_param size).ino_cnt - 2) := by
  obtain ⟨hlaid, hpad, -⟩ := h.laid
  obtain ⟨hbam, -, hnb, -, -, -⟩ := mkfs_sbi_of_fits h.fits
  obtain ⟨hg, -, hle, hlim, hcnt⟩ := mkfs_geometry h.fits h.sbi h.bits
  have hcov := (filesys_param_counts size).2.2.1
  have hlarge := h.large
  have hzone := h.zone
  have hroom := h.room
  rw [← h.sbi] at hbam hnb
  refine ⟨⟨⟨hg, ?_⟩, hpad, ?_, hio, hmem, List.range' (n + 5) ((filesys_param size).blk_cnt - (n + 5)),
    List.nodup_range', by rw [List.length_range'], fun b hb => ?_⟩,
    List.range' 2 ((filesys_param size).ino_cnt - 2), List.nodup_range', by rw [List.length_range'],
    fun k hk => ?_⟩
  · rw [hnb]
    exact hsize
  · rw [hnb, DIRECT]
    omega
  · obtain ⟨h1, h2⟩ := List.mem_range'_1.mp hb
    rw [hbam]
    refine ⟨by omega, ?_⟩
    rw [h.bam b (by omega), decide_eq_false_iff_not]
    omega
  · obtain ⟨h1, h2⟩ := List.mem_range'_1.mp hk
    refine ⟨by omega, ?_⟩
    rw [h.iam k (by omega), decide_eq_false_iff_not]
    omega

end Spare

/-! ## 2. A new directory

`gas_mkdir` takes an inode number, a block for the two entries of the new directory and perhaps one
for the entry in its parent.  `gas_create`, `gas_mknod` and `gas_link` take the last of these. -/

section Runs

variable {d : Fs Nat} {dir x t k m : Nat} {name : List UInt8} {mode : BitVec 16}

/-- Other inodes are not touched. -/
theorem Fs.set_inodes_of_ne {c : Ctx} {j : Nat} (hj : j ≠ k) : (d.set k c).inodes j = d.inodes j :=
  Function.update_of_ne hj _ _

/-- A name that does not occur in front of the first free slot is added while there is room for it.
The entry goes into the first free slot, which is on one of the pages with direct blocks. -/
theorem add_runs (hdir : d.isDir dir = true) (hok : DirOk (d.inode dir)) (hn : IsName name)
    (hpos : 0 < x) (hlt : x < 4294967296) (hroom : Roomy d.vol (k + 1))
    (habs : locate ((d.inode dir).slots.take (hole (d.inode dir).slots)) name = none)
    (hshort : (slotPos (hole (d.inode dir).slots)).1 < DIRECT) :
    ∃ c, gas_add_link (d.ctx dir) name x = (c, none) ∧ Roomy c.v k ∧ d.Frame (d.set dir c) ∧
      c.inode.slots = put (d.inode dir).slots (name, x) ∧ (Blank (d.inode dir) → Blank c.inode) := by
  obtain ⟨i, hi⟩ := Fs.isDir_some hdir
  obtain ⟨c, hc, hr⟩ := Roomy.add (c := d.ctx dir) hroom hok hn x habs hshort
  have hvol := gas_add_link_blockStep (c := d.ctx dir) hok hn x
  obtain ⟨hstep, hspec⟩ := gas_add_link_spec (c := d.ctx dir) hok hn x
  rw [hc] at hvol hstep hspec
  rw [Fs.ctx_inode, Fs.inode_of hi] at hstep
  rcases hspec with ⟨e, he, -⟩ | ⟨-, -, hup⟩
  · simp at he
  · refine ⟨c, hc, hr, Fs.frame_set hi hvol hstep, ?_, hup.blank⟩
    rw [entryOf, u32_of_lt hlt, if_neg hpos.ne'] at hup
    exact eq_put_of_getElem? hup.getElem?

/-- A name that is in no slot is in none in front of the hole. -/
theorem locate_hole (h : d.isDir dir = true) (habs : d.entry (dir, name) = none) :
    locate ((d.inode dir).slots.take (hole (d.inode dir).slots)) name = none := by
  rw [Fs.entry_of_isDir h] at habs
  exact locate_take_none (locate_eq_none_iff.mpr habs) _

/-- **`gas_mkdir` enters every absent name** while there is room, and touches no third inode.  What
is left of blocks and numbers is told, so that the next call can be made. -/
theorem gas_mkdir_runs (h : d.Consistent) (hroom : Roomy d.vol (k + 2))
    (hspare : SpareInodes d.vol (m + 1)) (hmode : S_ISDIR (S_IFDIR ||| mode) = true)
    (hdir : d.isDir dir = true) (hn : IsName name) (habs : d.entry (dir, name) = none)
    (hshort : (slotPos (hole (d.inode dir).slots)).1 < DIRECT) :
    ∃ d' x, gas_mkdir d dir name mode = (d', none) ∧ Roomy d'.vol k ∧ SpareInodes d'.vol m ∧
      (d'.inode dir).slots = put (d.inode dir).slots (name, x) ∧
      d'.isDir dir = true ∧ d.inodes x = none ∧ d'.isDir x = true ∧ Blank (d'.inode x) ∧
      (d'.inode x).slots = [some (dot, x), some (dotdot, dir)] ∧ (d'.inode x).i_nlink = 2 ∧
      ∀ j i, j ≠ dir → d.inodes j = some i → d'.inodes j = some i := by
  obtain ⟨i, hi⟩ := Fs.isDir_some hdir
  obtain ⟨-, hpos, hlt, -⟩ := h.numbers.ino dir i hi
  have hframe := Fs.frame_modify hi inc_linkStep
  have hdir0 : (d.modify dir inode_inc_link_count).isDir dir = true :=
    (Fs.isDir_modify hi inc_linkStep dir).trans hdir
  have hentry0 : (d.modify dir inode_inc_link_count).entry = d.entry :=
    congrArg Space.entry (Fs.space_modify hi inc_linkStep)
  have hinode0 : (d.modify dir inode_inc_link_count).inode dir = inode_inc_link_count (d.inode dir) := by
    rw [Fs.modify, Fs.inode_of (Function.update_self _ _ _)]
  have hother0 : ∀ j, j ≠ dir → (d.modify dir inode_inc_link_count).inodes j = d.inodes j :=
    fun j hj => Function.update_of_ne hj _ _
  rcases gas_mkdir_cases h.numbers hdir name mode with ⟨hno, -⟩ | ⟨d0, inode, v, rfl, hnew, -, hok⟩
  · rcases hno with hmem | hfull
    · rw [hroom.mem] at hmem
      simp at hmem
    · exact absurd hfull (hspare.not_full h.numbers.geometry)
  have hne := hnew.ne hdir0
  obtain ⟨c, hm, hroom1⟩ := Roomy.make_empty (c := ⟨v, inode_inc_link_count inode, 0⟩)
    (hnew.roomy (k := k + 2) hroom) (hnew.blkaddr 0) dir
  obtain ⟨hv, hino, hl, hdead, himode, -, hblank, hslots⟩ := hnew.make_empty hmode hpos hlt hm
  obtain ⟨-, hdirs1, -, -, -, -, hspace1⟩ := hnew.directory (h.numbers.frame hframe)
    (h.named.dirs.keeps_modify hi inc_linkStep).dirs hmode hdir0 hm
  have hok' := (hok c hm).2
  rw [hino] at hok'
  have hinode1 := Fs.set_inode_of_ne (d.modify dir inode_inc_link_count) (c := c) hne
  have hother1 : ∀ j, j ≠ inode.i_ino →
      ((d.modify dir inode_inc_link_count).set inode.i_ino c).inodes j =
        (d.modify dir inode_inc_link_count).inodes j := fun j hj => Fs.set_inodes_of_ne hj
  have hself1 : ((d.modify dir inode_inc_link_count).set inode.i_ino c).inodes inode.i_ino =
      some c.inode := Function.update_self _ _ _
  replace hroom1 : Roomy ((d.modify dir inode_inc_link_count).set inode.i_ino c).vol (k + 1) := hroom1
  have hspare1 : SpareInodes ((d.modify dir inode_inc_link_count).set inode.i_ino c).vol m :=
    (hnew.spare hspare).same hv.sameVol hv.inodeInUse
  generalize d.modify dir inode_inc_link_count = d0 at *
  generalize d0.set inode.i_ino c = d1 at *
  have hdir1 : d1.isDir dir = true := by
    have hmem : dir ∈ d1.space.dirs := by
      rw [hspace1]
      exact Set.mem_insert_of_mem _ hdir0
    exact hmem
  have hentry1 : d1.entry = _ := congrArg Space.entry hspace1
  have habs1 : d1.entry (dir, name) = none := by
    rw [hentry1]
    simp only [if_neg hne, hentry0, habs]
  have hslots1 : (d1.inode dir).slots = (d.inode dir).slots := by
    rw [hinode1, hinode0, inc_linkStep.slots]
  rw [← hslots1] at hshort ⊢
  obtain ⟨c', hadd, hroom2, hframe2, hslot, -⟩ := add_runs hdir1 (hdirs1 dir hdir1).1 hn hnew.pos
    hnew.lt hroom1 (locate_hole hdir1 habs1) hshort
  have hx : (d1.set dir c').inodes inode.i_ino = some c.inode := by
    rw [Fs.set_inodes_of_ne hne.symm, hself1]
  have hnone : d.inodes inode.i_ino = none := (hother0 _ hne.symm).symm.trans hnew.absent
  refine ⟨d1.set dir c', inode.i_ino, hok' c' hadd, hroom2, hspare1.same hframe2.vol hframe2.bits,
    ?_, ?_, hnone, ?_, ?_, ?_, ?_, fun j i hj hk => ?_⟩
  · rw [Fs.set_inode]
    exact hslot
  · rw [hframe2.isDir]
    exact hdir1
  · rw [Fs.isDir_of hx, himode, hdead]
    rfl
  · rw [Fs.inode_of hx]
    exact hblank
  · rw [Fs.inode_of hx]
    exact hslots
  · rw [Fs.inode_of hx]
    exact hl
  · have hjx : j ≠ inode.i_ino := by
      rintro rfl
      rw [hnone] at hk
      simp at hk
    rw [Fs.set_inodes_of_ne hj, hother1 j hjx, hother0 j hj, hk]

/-- **`gas_create` and `gas_mknod`** enter such a name. -/
theorem new_nondir_runs (h : d.NumbersOk) (hroom : Roomy d.vol (k + 1))
    (hspare : SpareInodes d.vol (m + 1)) (hdir : d.isDir dir = true) (hok : DirOk (d.inode dir))
    (hn : IsName name)
    (habs : locate ((d.inode dir).slots.take (hole (d.inode dir).slots)) name = none)
    (hshort : (slotPos (hole (d.inode dir).slots)).1 < DIRECT) (rdev : Nat) :
    ∃ d' x, new_nondir d dir name mode rdev = (d', none) ∧ Roomy d'.vol k ∧ d'.isDir dir = true ∧
      (d'.inode dir).slots = put (d.inode dir).slots (name, x) ∧
      (Blank (d.inode dir) → Blank (d'.inode dir)) ∧
      ∃ i, d'.inodes x = some i ∧ S_ISDIR i.i_mode = S_ISDIR mode := by
  rcases new_nondir_cases h hdir name mode rdev with ⟨hno, -⟩ | ⟨inode, v, hnew, he⟩
  · rcases hno with hmem | hfull
    · rw [hroom.mem] at hmem
      simp at hmem
    · exact absurd hfull (hspare.not_full h.geometry)
  have hne := hnew.ne hdir
  have hin := Fs.set_inode_of_ne d hne ⟨v, inode, 0⟩
  have hself : (d.set inode.i_ino ⟨v, inode, 0⟩).inodes inode.i_ino = some inode :=
    Function.update_self _ _ _
  have hroom1 : Roomy (d.set inode.i_ino ⟨v, inode, 0⟩).vol (k + 1) := hnew.roomy hroom
  have hdir1 : (d.set inode.i_ino ⟨v, inode, 0⟩).isDir dir = true := by
    simpa only [Fs.isDir, Fs.set_inodes_of_ne hne] using hdir
  rw [he]
  dsimp only
  generalize d.set inode.i_ino ⟨v, inode, 0⟩ = d1 at *
  rw [← hin] at hok habs hshort ⊢
  obtain ⟨c, hadd, hroom2, hframe, hslots, hblank⟩ := add_runs hdir1 hok hn hnew.pos hnew.lt hroom1
    habs hshort
  rw [hadd]
  refine ⟨d1.set dir c, inode.i_ino, rfl, hroom2, (hframe.isDir dir).trans hdir1, ?_, ?_, inode,
    (Fs.set_inodes_of_ne hne.symm).trans hself, hnew.isDir⟩
  · rw [Fs.set_inode]
    exact hslots
  · rw [Fs.set_inode]
    exact hblank

/-- **`gas_link`** does. -/
theorem gas_link_runs (h : d.NumbersOk) (hroom : Roomy d.vol (k + 1)) {i : Inode}
    (hx : d.inodes x = some i) (hne : dir ≠ x) (hdir : d.isDir dir = true)
    (hok : DirOk (d.inode dir)) (hn : IsName name)
    (habs : locate ((d.inode dir).slots.take (hole (d.inode dir).slots)) name = none)
    (hshort : (slotPos (hole (d.inode dir).slots)).1 < DIRECT) :
    ∃ d', gas_link d x dir name = (d', none) ∧ Roomy d'.vol k ∧ d.Frame d' ∧
      (d'.inode dir).slots = put (d.inode dir).slots (name, x) ∧
      (Blank (d.inode dir) → Blank (d'.inode dir)) := by
  have hcall : gas_link d x dir name = add_nondir (d.modify x
      (inode_inc_link_count ∘ fun i => { i with i_ctime := d.vol.now })) dir name x false := by
    unfold gas_link
    dsimp only
    rw [Fs.modify_modify]
  have hf := inc_linkStep.comp (ctime_linkStep d.vol.now)
  generalize (inode_inc_link_count ∘ fun i : Inode => { i with i_ctime := d.vol.now }) = f at hcall hf
  rw [hcall]
  have hframe := Fs.frame_modify hx hf
  obtain ⟨i1, hx1, -⟩ := hframe.after hx
  have hin := Fs.modify_inode_of_ne d hne f
  have hnum1 := h.frame hframe
  have hroom1 : Roomy (d.modify x f).vol (k + 1) := hroom
  generalize d.modify x f = d1 at *
  obtain ⟨hino, hpos, hlt, -⟩ := hnum1.ino x i1 hx1
  rw [← hin] at hok habs hshort ⊢
  obtain ⟨c, hadd, hroom2, hframe2, hslots, hblank⟩ := add_runs ((hframe.isDir dir).trans hdir) hok hn
    hpos hlt hroom1 habs hshort
  unfold add_nondir
  rw [Fs.inode_of hx1, hino, hadd]
  refine ⟨d1.set dir c, rfl, hroom2, hframe.trans hframe2, ?_, ?_⟩
  · rw [Fs.set_inode]
    exact hslots
  · rw [Fs.set_inode]
    exact hblank

end Runs

/-! ## 3. Reads that succeed, and reads that fail

A kernel that reads everything lets `gas_unlink` free every name.  A kernel that reads no page of a
directory lets `gas_rmdir` remove it with everything in it, which is the run that loses files. -/

section Unread

variable {d : Fs Nat} {dir x t : Nat} {name : List UInt8}

/-- **`gas_unlink` frees the slot** of a name that can be read. -/
theorem gas_unlink_runs {k y : Nat} {i : Inode} (h : d.DirsOk) (hroom : Roomy d.vol (k + 1))
    (hx : d.inodes x = some i) (hne : dir ≠ x) (hdir : d.isDir dir = true) (hn : IsName name)
    (hs : (d.inode dir).slots[t]? = some (some (name, y))) (ht : (slotPos t).1 < DIRECT) :
    ∃ d', gas_unlink d dir name x = (d', none) ∧ Roomy d'.vol k ∧ d.Frame d' ∧
      (d'.inode dir).slots = (d.inode dir).slots.set t none ∧
      (Blank (d.inode dir) → Blank (d'.inode dir)) := by
  obtain ⟨hok, hu⟩ := h dir hdir
  obtain ⟨hframe, -⟩ := h.unlink hn hdir hx
  have hfind := gas_find_entry_of_read (c := d.ctx dir) hok hu hn hs (hroom.pgread _)
  obtain ⟨tick, hc⟩ := gas_find_entry_ticked (d.ctx dir) name
  unfold gas_unlink at hframe ⊢
  generalize gas_find_entry (d.ctx dir) name = r at hfind hc hframe
  obtain ⟨o, c⟩ := r
  obtain rfl : o = some (slotPos t) := hfind
  obtain rfl : c = { d.ctx dir with v := { d.vol with tick := tick } } := hc
  obtain ⟨c', hdel, hroom'⟩ := Roomy.delete (c := { d.ctx dir with v := { d.vol with tick := tick } })
    (hroom.ticked tick) ht
  obtain ⟨-, hspec⟩ := gas_delete_entry_spec
    (c := { d.ctx dir with v := { d.vol with tick := tick } }) hok (getElem?_slots_eq_some.mp hs).1
  rw [hdel] at hspec
  dsimp only at hframe ⊢
  rw [hdel] at hframe ⊢
  have hout : ∀ f g : Inode → Inode, (((d.set dir c').modify x f).modify x g).inode dir = c'.inode := by
    intro f g
    rw [Fs.modify_inode_of_ne _ hne, Fs.modify_inode_of_ne _ hne, Fs.set_inode]
  refine ⟨_, rfl, hroom', hframe, ?_, ?_⟩
  · rw [hout]
    rcases hspec with ⟨e, he, -⟩ | ⟨-, hup⟩
    · simp at he
    · exact eq_set_of_getElem? (List.getElem?_eq_some_iff.mp hs).1 hup.getElem?
  · rw [hout]
    rcases hspec with ⟨e, he, -⟩ | ⟨-, hup⟩
    · simp at he
    · exact hup.blank

/-- A chunk of a direct block is prepared, unless there is no free block. -/
theorem prepare_direct {c : Ctx} (hg : TreeGeometry c.v) (hpad : c.v.MapPadded)
    (hlt : DIRECT ≤ c.v.sbi.s_nblocks) (hfree : ¬c.v.BamFull) {pos : Nat} (hp : pos / 4096 < DIRECT)
    (len : Nat) : (gas_dir_prepare_chunk c pos len).2 = none := by
  have hblock := gas_get_block_direct hg hpad hp (lt_of_lt_of_le hp hlt)
  unfold gas_dir_prepare_chunk __block_write_begin
  generalize gas_get_block c (pos / 4096) true = r at hblock
  cases hblock with
  | found hne => rfl
  | new b hint hz hzone hb => rfl
  | full hz hfull => exact absurd hfull hfree

/-- **A directory none of whose pages can be read is removed**, whatever it holds.  This is the call
behind the run in which link counts go wrong. -/
theorem gas_rmdir_unread (h : d.DirsOk) (hg : TreeGeometry d.vol) (hpad : d.vol.MapPadded)
    (hlt : DIRECT ≤ d.vol.sbi.s_nblocks) (hfree : ¬d.vol.BamFull) (hdir : d.isDir dir = true)
    (hxdir : d.isDir x = true) (hn : IsName name)
    (hs : (d.inode dir).slots[t]? = some (some (name, x))) (ht : (slotPos t).1 < DIRECT)
    (hio : ∀ n, d.vol.env.pgread n = decide (d.vol.tick + gas_dir_pages (d.inode x) ≤ n)) :
    (gas_rmdir d dir name x).2 = none := by
  obtain ⟨hok, hu⟩ := h dir hdir
  rw [gas_rmdir_eq_none_iff]
  constructor
  · rw [gas_empty_dir_iff (h x hxdir).1]
    intro s e he _
    obtain ⟨P, m, hdim⟩ := (h x hxdir).1.dims
    have hm := hdim.le
    have hlt := (getElem?_slots_eq_some.mp he).1
    rw [Fs.ctx_inode, hdim.nslots] at hlt
    rw [Fs.ctx_v, hio, hdim.pages, decide_eq_false_iff_not]
    omega
  · have hfind := gas_find_entry_of_read (c := (d.scanned x).ctx dir) hok hu hn hs
      ((hio _).trans (decide_eq_true (Nat.le_add_right _ _)))
    obtain ⟨tick, hc⟩ := gas_find_entry_ticked ((d.scanned x).ctx dir) name
    have hle := slotPos_le t
    have hpage : (PAGE_CACHE_SIZE * (slotPos t).1 + (slotPos t).2) / 4096 < DIRECT := by
      rw [PAGE_CACHE_SIZE]
      omega
    refine ⟨(slotPos t).1, (slotPos t).2, (gas_find_entry ((d.scanned x).ctx dir) name).2,
      Prod.ext hfind rfl, ?_⟩
    rw [hc]
    have hg1 : TreeGeometry { (d.scanned x).vol with tick := tick } :=
      ⟨{ hg.toGeometry with }, hg.nblocks_le⟩
    exact prepare_direct (c := ⟨_, _, _⟩) hg1 hpad hlt hfree hpage _

end Unread

end GasFs
