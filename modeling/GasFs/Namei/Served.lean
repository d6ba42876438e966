/-
# Calls that do not fail

While the requests to the kernel are met, and five blocks and an inode number are free, no call fails
that the VFS allows, but for `gas_rmdir` of a directory that is not deserted and `gas_symlink` of a body
that is too long (`allowed_call_succeeds_iff`): `gas_mkdir` takes a block for the directory, and an entry
takes four at most, those of a path.

Five blocks are enough for any call: `gas_mkdir` needs one for the new directory and up to four for
the page of its entry, since a path has four slots at most.  The bound on the directory's size is
that its next page is a block number the device has.

That the two exceptions do fail is the other half.  Both calls check their condition themselves, in
front of everything else.
-/
import GasFs.Namei.Atomic

namespace GasFs

open Bytes SlotTable Namespace

/-! ## 1. Entries

A chunk needs the null slots on its path, at most four, and as many free blocks.  Reads succeed, so
nothing else can stop it. -/

section Entries

variable {c c1 : Ctx} {v : Vol} {k : Nat} {name : List UInt8}

/-- The free blocks are in the data zone. -/
theorem Roomy.le_card (h : Roomy v k) : k ≤ v.free.card := by
  obtain ⟨l, hnd, hlen, hl⟩ := h.free
  have hsub : l.toFinset ⊆ v.free := by
    intro b hb
    obtain ⟨hlt, hfree⟩ := hl b (List.mem_toFinset.mp hb)
    refine mem_free.mpr ⟨?_, hfree⟩
    by_contra hz
    rw [h.padded b (h.geometry.bits_per_block ▸ hlt) hz] at hfree
    simp at hfree
  have hcard := Finset.card_le_card hsub
  rw [List.toFinset_card_of_nodup hnd] at hcard
  exact hlen.trans hcard

/-- A path has four slots at most. -/
theorem missing_le_four {o : List Nat} (ho : IsLeaf o) : c.missing o ≤ 4 := by
  have hlen : o.length ≤ 4 := by
    obtain ⟨hpath, hlen⟩ := ho
    cases o with
    | nil => exact hpath.elim
    | cons i r =>
      have hi : i < 9 := (isPath_cons.mp hpath).1
      rw [List.headD_cons] at hlen
      omega
  refine le_trans (List.countP_le_length) ?_
  rw [List.length_range]
  exact hlen

/-- **A chunk can be prepared** anywhere in front of the last block of the device. -/
theorem prepare_served (hc : TreeOk c) (hio : ∀ n, c.v.env.bread n = true) (hroom : Roomy c.v 4)
    {pos : Nat} (hp : pos / 4096 < c.v.sbi.s_nblocks) (len : Nat) :
    (gas_dir_prepare_chunk c pos len).2 = none := by
  have hmap := fun hne => @gas_get_block_mapped c (pos / 4096) hio hne true
  have hhole := fun hz => @gas_get_block_hole c (pos / 4096) hc hp hio hz
  have hleaf := block_path_isLeaf hc hp
  unfold gas_dir_prepare_chunk __block_write_begin PAGE_CACHE_SIZE
  dsimp only
  by_cases hz : c.val (block_to_path c.v (pos / 4096 : Nat)) = 0
  · have hf := hhole hz
    generalize gas_get_block c (pos / 4096) true = r at hf
    cases hf with
    | full c' hs hfew => exact absurd hfew (not_lt.mpr ((missing_le_four hleaf).trans hroom.le_card))
    | grafted c' m nb hg hlen hle => rfl
  · obtain ⟨c', -, he⟩ := hmap hz
    rw [he]
    rfl

/-- The chunk of a record is on the page behind the last one at most. -/
theorem record_page {i : Inode} {t n : Nat} (ht : t ≤ i.nslots) (hsize : i.i_size / 4096 + 1 < n) :
    (PAGE_CACHE_SIZE * (slotPos t).1 + (slotPos t).2) / 4096 < n := by
  have hn : i.nslots = 15 * (i.i_size / 4096) + i.i_size % 4096 / 260 := rfl
  have hle := slotPos_le t
  have hpage : (PAGE_CACHE_SIZE * (slotPos t).1 + (slotPos t).2) / 4096 = (slotPos t).1 := by
    rw [PAGE_CACHE_SIZE]
    omega
  rw [hpage, slotPos]
  dsimp only
  omega

/-- **An absent name can be added.** -/
theorem add_served (hc : TreeOk c) (hio : ∀ n, c.v.env.bread n = true) (hroom : Roomy c.v 4)
    (hd : DirOk c.inode) (hn : IsName name) (habs : ∀ t v : Nat, c.inode.slots[t]? ≠ some (some (name, v)))
    (hsize : c.inode.i_size / 4096 + 1 < c.v.sbi.s_nblocks) (ino : Nat) :
    (gas_add_link c name ino).2 = none := by
  have hscan := gas_add_link_scan hd hn ino
  generalize gas_add_link c name ino = r at hscan
  cases hscan with
  | unread c1 ht n hp hr =>
    rw [hroom.pgread] at hr
    simp at hr
  | present c1 ht t v hs hp => exact absurd hs (habs t v)
  | free c1 hcl t ht hp _ _ =>
    have hle : t ≤ c.inode.nslots := by
      rcases ht with ht | ht
      · have hlt := (List.getElem?_eq_some_iff.mp ht).1
        rw [length_slots] at hlt
        exact hlt.le
      · exact ht.le
    obtain ⟨tick, hv⟩ := hcl.vol
    have hprep := prepare_served (hcl.treeOk hc) (by rw [hv]; exact hio) (by rw [hv]; exact hroom.ticked tick)
      (by rw [hv]; exact record_page hle hsize) sizeof_gas_dir_entry
    generalize hr : gas_dir_prepare_chunk c1 _ sizeof_gas_dir_entry = r at hprep
    obtain ⟨c2, _ | e⟩ := r
    · rw [got_it, hr]; rfl
    · simp at hprep

/-- **The body of a symbolic link** can be written. -/
theorem Roomy.page_symlink (h : Roomy c.v (k + 1)) (hz : c.inode.blkaddr 0 = 0)
    (symname : List UInt8) : ∃ c', page_symlink c symname = (c', none) ∧ Roomy c'.v k := by
  have h1 := h.ticked (c.v.tick + 1)
  have hd := gas_get_block_direct (c := { c with v := { c.v with tick := c.v.tick + 1 } })
    h1.geometry h1.padded (n := 0) (by decide) (lt_of_lt_of_le (by decide) h1.direct)
  have hmem := h.mem c.v.tick
  unfold GasFs.page_symlink gas_write_begin block_write_begin __block_write_begin
  simp only [hmem, Bool.true_eq_false, if_false, Nat.zero_div]
  generalize gas_get_block { c with v := { c.v with tick := c.v.tick + 1 } } 0 true = r at hd
  cases hd with
  | found hne => exact absurd hz hne
  | new b hint hz' hzone hfree =>
    simp only [ne_eq, not_true_eq_false, if_false, Bool.true_or, if_true]
    refine ⟨_, rfl, ?_⟩
    -- the whole body is copied, so nothing is cut
    have hv : ∀ c : Ctx, (gas_write_end c 0 symname.length symname.length false).1.v = c.v := by
      intro c
      simp only [gas_write_end, Nat.lt_irrefl, false_and, if_false]
      split_ifs <;> rfl
    rw [hv]
    exact h1.take b hint
  | full hz' hfull => exact absurd hfull h1.not_full

end Entries

/-! ## 2. Calls

One lemma a call.  Each goes through the requests of the call in their order and finds them met, and
leaves the room that the next one needs. -/

/-- What a call may need: requests are met, and there are five blocks and a number.  One more block
than a path can need, for the directory that is made. -/
structure Fs.Ample (d : Fs Nat) : Prop where
  bread : ∀ n, d.vol.env.bread n = true
  room : Roomy d.vol 5
  numbers : ¬d.vol.IamFull

/-- A directory that does not come to the end of the device.  A device has fewer blocks than a path
can name, so this is the bound that counts. -/
def Fs.Small (d : Fs Nat) (dir : Nat) : Prop := (d.inode dir).i_size / 4096 + 1 < d.vol.sbi.s_nblocks

section Calls

variable {d : Fs Nat} {dir x : Nat} {name : List UInt8} {mode : BitVec 16} {i : Inode}

/-- Buffers can still be read after a change that leaves the kernel. -/
theorem Fs.Ample.bread_of {d' : Fs Nat} (h : d.Ample) (hv : SameVol d.vol d'.vol) (n : Nat) :
    d'.vol.env.bread n = true := by
  rw [hv.env]
  exact h.bread n

/-- A directory of the same size is as small. -/
theorem Fs.Small.of {d' : Fs Nat} (h : d.Small dir) (hv : SameVol d.vol d'.vol)
    (hlen : (d'.inode dir).i_size = (d.inode dir).i_size) : d'.Small dir := by
  rw [Fs.Small, hlen, hv.sbi]
  exact h

/-- A change of links leaves every table as it is. -/
theorem LinkStep.table {f : Inode → Inode} (h : LinkStep f) (d : Fs Nat) (x dir : Nat) :
    ((d.modify x f).inode dir).slots = (d.inode dir).slots ∧
      ((d.modify x f).inode dir).i_size = (d.inode dir).i_size := by
  rcases eq_or_ne dir x with rfl | hne
  · obtain ⟨nlink, ctime, he⟩ := h (d.inode dir)
    rw [Fs.modify_inode]
    refine ⟨h.slots _, ?_⟩
    rw [he]
  · rw [Fs.modify_inode_of_ne d hne]
    exact ⟨rfl, rfl⟩

/-- There is memory and a number for a new inode. -/
theorem Fs.Ample.memory (h : d.Ample) : ¬d.NoInode := by
  rintro (hno | hfull)
  · rw [h.room.mem] at hno
    simp at hno
  · exact h.numbers hfull

/-- A name that is absent is in no record. -/
theorem Fs.absent_slot (hdir : d.isDir dir = true) (habs : d.entry (dir, name) = none) (t v : Nat) :
    (d.inode dir).slots[t]? ≠ some (some (name, v)) := by
  intro hs
  rw [Fs.entry_of_isDir hdir] at habs
  exact lookup_eq_none_iff.mp habs (List.mem_map.mpr
    ⟨(name, v), mem_live.mpr (List.mem_iff_getElem?.mpr ⟨t, hs⟩), rfl⟩)

/-- **A name in a directory can be removed.** A record in a hole of a directory would need blocks,
up to the four of its path. -/
theorem Fs.Books.unlinkable (h : d.Books) (hd : d.DirsOk) (hio : ∀ n, d.vol.env.bread n = true)
    (hroom : Roomy d.vol 4) (hold : OldName d dir name x) (hsize : d.Small dir) :
    Unlinkable d dir name := by
  have hdir := Fs.isDir_of_entry hold.entry
  obtain ⟨hok, hu⟩ := hd dir hdir
  have he := hold.entry
  rw [Fs.entry_of_isDir hdir] at he
  obtain ⟨t, ht⟩ := List.mem_iff_getElem?.mp (mem_live.mp (mem_live_of_lookup he))
  have hfind := gas_find_entry_of_read (c := d.ctx dir) hok hu hold.isName ht (hroom.pgread _)
  have htick := gas_find_entry_ticked (d.ctx dir) name
  have hle : t ≤ (d.inode dir).nslots := by
    have hlt := (List.getElem?_eq_some_iff.mp ht).1
    rw [length_slots] at hlt
    exact hlt.le
  generalize hr : gas_find_entry (d.ctx dir) name = r at hfind htick
  obtain ⟨o, c⟩ := r
  obtain rfl : o = some (slotPos t) := hfind
  have hok := htick.treeOk (h.treeOk (Fs.hasTree_of_isDir hdir))
  obtain ⟨tick, hc⟩ := htick
  dsimp only at hok hc
  have hv : c.v = { d.vol with tick := tick } := by
    rw [hc]
    rfl
  exact ⟨_, _, c, hr, prepare_served hok (by rw [hv]; exact hio) (by rw [hv]; exact hroom.ticked tick)
    (by rw [hv]; exact record_page hle hsize) _⟩

/-- **A name for an inode in core**, in a directory that is as it was. -/
theorem Fs.Books.add_served {d1 : Fs Nat} (h1 : d1.Books) (hio : ∀ n, d1.vol.env.bread n = true)
    (hroom : Roomy d1.vol 4) (htree : d1.HasTree dir) (hok : DirOk (d1.inode dir)) (hn : IsName name)
    (hdir : d.isDir dir = true) (habs : d.entry (dir, name) = none)
    (hslots : (d1.inode dir).slots = (d.inode dir).slots)
    (hsize : d1.Small dir) (ino : Nat) : (gas_add_link (d1.ctx dir) name ino).2 = none := by
  refine GasFs.add_served (h1.treeOk htree) hio hroom hok hn (fun t v => ?_) hsize ino
  rw [Fs.ctx_inode, hslots]
  exact Fs.absent_slot hdir habs t v

/-- `add_nondir` fails exactly when the entry cannot be made. -/
theorem add_nondir_snd (d : Fs Nat) (dir : Nat) (name : List UInt8) (x : Nat) (last : Bool) :
    (add_nondir d dir name x last).2 = (gas_add_link (d.ctx dir) name (d.inode x).i_ino).2 := by
  unfold add_nondir
  generalize gas_add_link (d.ctx dir) name (d.inode x).i_ino = r
  obtain ⟨c, _ | e⟩ := r <;> rfl

/-- **`gas_mknod` and `gas_create`.** -/
theorem new_nondir_served (h : d.Books) (hd : d.DirsOk) (ha : d.Ample) (hnew : NewName d dir name)
    (hsize : d.Small dir) (rdev : Nat) : (new_nondir d dir name mode rdev).2 = none := by
  unfold new_nondir
  rcases h.numbers.new_inode (d.inode dir) mode with ⟨inode, v, he, hnode⟩ | ⟨hno, -⟩
  · have hino := (gas_set_inode_fields inode rdev).1
    have hset := hnode.set_inode rdev
    have hput := h.new_inode he hnode hino hset.blkaddr
    have hne := hset.ne hnew.live
    rw [hino] at hne
    rw [he]
    dsimp only
    rw [Fs.hash_eq d v hino] at hput ⊢
    rw [add_nondir_snd]
    have hin := d.set_inode_of_ne hne ⟨v, gas_set_inode inode rdev, 0⟩
    refine hput.books.add_served (ha.bread_of hput.vol) (hnode.roomy (ha.room.mono (by omega)))
      (hput.hasTree (Fs.hasTree_of_isDir hnew.live)) ?_ hnew.isName hnew.live hnew.absent (by rw [hin])
      (hsize.of hput.vol (by rw [hin])) _
    rw [hin]
    exact (hd dir hnew.live).1
  · exact absurd hno ha.memory

/-- **`gas_symlink`** of a body that is short enough. -/
theorem gas_symlink_served (h : d.Books) (hd : d.DirsOk) (ha : d.Ample) (hnew : NewName d dir name)
    (hsize : d.Small dir) {symname : List UInt8} (hlen : symname.length + 1 ≤ d.vol.sbi.s_blocksize) :
    (gas_symlink d dir name symname).2 = none := by
  unfold gas_symlink
  rw [if_neg (not_lt.mpr hlen)]
  rcases h.numbers.new_inode (d.inode dir) (S_IFLNK ||| 0o777#16) with ⟨inode, v, he, hnode⟩ | ⟨hno, -⟩
  · have hino := (gas_set_inode_fields inode 0).1
    have hset := hnode.set_inode 0
    have hne := hset.ne hnew.live
    rw [hino] at hne
    have hhatch := h.hatch he hnode hino hset.blkaddr (gas_set_inode_mode inode 0) (by decide)
      (fun c => (page_symlink c symname).1) (fun c hc => page_symlink_ownStep hc symname)
      fun hg hp => (page_symlink_thin (c := ⟨v, gas_set_inode inode 0, 0⟩) hg hp hset.size hset.blkaddr
        symname).1
    obtain ⟨c, hbody, hroom⟩ := Roomy.page_symlink (c := ⟨v, gas_set_inode inode 0, 0⟩)
      (hnode.roomy ha.room) (hset.blkaddr 0) symname
    rw [he]
    dsimp only
    rw [Fs.hash_eq d v hino, Fs.set_ctx, hbody]
    rw [hbody] at hhatch
    dsimp only
    rw [Fs.set_set, add_nondir_snd]
    have hin := d.set_inode_of_ne hne c
    refine hhatch.stays.books.add_served (ha.bread_of hhatch.stays.vol) hroom
      (hhatch.stays.hasTree (Fs.hasTree_of_isDir hnew.live)) ?_ hnew.isName hnew.live hnew.absent
      (by rw [hin]) (hsize.of hhatch.stays.vol (by rw [hin])) _
    rw [hin]
    exact (hd dir hnew.live).1
  · exact absurd hno ha.memory

/-- **`gas_link`.** -/
theorem gas_link_served (h : d.Books) (hd : d.DirsOk) (ha : d.Ample) (hx : d.inodes x = some i)
    (hnew : NewName d dir name) (hsize : d.Small dir) : (gas_link d x dir name).2 = none := by
  have hf := inc_linkStep.comp (ctime_linkStep d.vol.now)
  have hstays := h.modify ⟨i, hx⟩ hf.keepsTree
  have hdirs := (hd.keeps_modify hx hf).dirs
  have hdir := (Fs.isDir_modify hx hf dir).trans hnew.live
  obtain ⟨hslots, hlen⟩ := hf.table d x dir
  unfold gas_link
  dsimp only
  rw [Fs.modify_modify, add_nondir_snd]
  exact hstays.books.add_served (ha.bread_of hstays.vol) (ha.room.mono (by omega))
    (hstays.hasTree (Fs.hasTree_of_isDir hnew.live)) (hdirs dir hdir).1 hnew.isName hnew.live hnew.absent
    hslots (hsize.of hstays.vol hlen) _

/-- **`gas_mkdir`.** -/
theorem gas_mkdir_served (h : d.Books) (hd : d.DirsOk) (ha : d.Ample) (hmode : mode &&& S_IFMT = 0)
    (hnew : NewName d dir name) (hsize : d.Small dir) : (gas_mkdir d dir name mode).2 = none := by
  obtain ⟨idir, hi⟩ := Fs.isDir_some hnew.live
  have hinc := h.modify ⟨idir, hi⟩ inc_linkStep.keepsTree
  have hdirs1 := (hd.keeps_modify hi inc_linkStep).dirs
  have hdir1 := (Fs.isDir_modify hi inc_linkStep dir).trans hnew.live
  obtain ⟨hslots, hlen⟩ := inc_linkStep.table d dir dir
  have hroom1 : Roomy (d.modify dir inode_inc_link_count).vol 5 := ha.room
  have hno1 : ¬(d.modify dir inode_inc_link_count).NoInode := ha.memory
  unfold gas_mkdir
  dsimp only
  generalize d.modify dir inode_inc_link_count = d1 at *
  rcases hinc.books.numbers.new_inode (d1.inode dir) (S_IFDIR ||| mode) with
    ⟨inode, v, he, hnode⟩ | ⟨hno, -⟩
  · have hino : (gas_set_inode (inode_inc_link_count inode) 0).i_ino = inode.i_ino :=
      (gas_set_inode_fields _ 0).1
    have hne := hnode.ne hdir1
    rw [he]
    dsimp only
    obtain ⟨op, hop⟩ := gas_set_inode_eq (inode_inc_link_count inode) 0
    generalize gas_set_inode (inode_inc_link_count inode) 0 = i0 at hino hop
    have h0 : ∀ n, i0.blkaddr n = 0 := fun n => by
      rw [hop]
      exact hnode.blkaddr n
    rw [Fs.hash_eq d1 v hino, Fs.set_ctx, Fs.set_inode_of_ne d1 hne]
    generalize (d1.inode dir).i_ino = p
    have hhatch := hinc.books.hatch he hnode hino h0 (by rw [hop]; rfl)
      (has_blocks_of_dir (S_ISDIR_mkdir hmode)) (fun c => (gas_make_empty c p).1)
      (fun c hc => (gas_make_empty_fillStep hc p).toOwnStep)
      fun hg hp => gas_make_empty_thin (c := ⟨v, i0, 0⟩) hg hp h0 p
    obtain ⟨c, hmade, hroom⟩ := Roomy.make_empty (c := ⟨v, i0, 0⟩) (hnode.roomy hroom1) (h0 0) p
    rw [hmade] at hhatch ⊢
    dsimp only
    rw [Fs.set_set]
    have hin := d1.set_inode_of_ne hne c
    have hvol := hinc.vol.trans hhatch.stays.vol
    have hserved := hhatch.stays.books.add_served (ha.bread_of hvol) hroom
      (hhatch.stays.hasTree (Fs.hasTree_of_isDir hdir1)) (by rw [hin]; exact (hdirs1 dir hdir1).1)
      hnew.isName hnew.live hnew.absent (by rw [hin, hslots]) (hsize.of hvol (by rw [hin, hlen]))
      ((d1.set inode.i_ino c).inode inode.i_ino).i_ino
    generalize gas_add_link ((d1.set inode.i_ino c).ctx dir) name
      ((d1.set inode.i_ino c).inode inode.i_ino).i_ino = r at hserved
    obtain ⟨c', _ | e⟩ := r
    · rfl
    · simp at hserved
  · exact absurd hno hno1

/-- **`gas_unlink`.** -/
theorem gas_unlink_served (h : d.Books) (hd : d.DirsOk) (ha : d.Ample) (hold : OldName d dir name x)
    (hsize : d.Small dir) : (gas_unlink d dir name x).2 = none :=
  (gas_unlink_eq_none_iff d dir name x).mpr
    (h.unlinkable hd ha.bread (ha.room.mono (by omega)) hold hsize)

/-- **`gas_rmdir`** of a directory that is deserted. -/
theorem gas_rmdir_served (h : d.Consistent) (hb : d.Books) (ha : d.Ample) (hold : OldName d dir name x)
    (hx : d.isDir x = true) (hdes : Deserted (d.inode x)) (hsize : d.Small dir) :
    (gas_rmdir d dir name x).2 = none := by
  obtain ⟨i, hi⟩ := Fs.isDir_some hx
  have hself := h.named.tree.self x hx
  rw [gas_rmdir_eq_none_iff]
  refine ⟨(gas_empty_dir_iff (c := d.ctx x) (h.named.dirs x hx).1).mpr fun t e hs hocc => ?_, ?_⟩
  · rcases hocc with ⟨hdot, hdotdot⟩ | ⟨hdot, hother⟩
    · exact absurd (hdes t e hs) (by simp [hdot, hdotdot])
    · -- the `.` of a directory is the directory
      have hlive : d.LiveEntry x t dot e.2 := ⟨hx, by rw [← hdot]; exact hs⟩
      have he := Option.some.inj (hself.symm.trans (hlive.entry h.named.dirs))
      rw [Fs.ctx_inode, Fs.inode_of hi, (h.named.ino x i hi).1] at hother
      exact absurd he.symm hother
  · have hscan := (hb.tick (d.vol.tick + gas_dir_pages (d.inode x))).books
    exact hscan.unlinkable h.named.dirs ha.bread ((ha.room.mono (by omega)).ticked _)
      ⟨hold.isName, hold.ne_dot, hold.ne_dotdot, hold.entry⟩ hsize

/-- The directory that a call changes. -/
def NameOp.parent : NameOp → Option Nat
  | .mknod dir _ _ _ => some dir
  | .create dir _ _ => some dir
  | .symlink dir _ _ => some dir
  | .link _ dir _ => some dir
  | .mkdir dir _ _ => some dir
  | .unlink dir _ _ => some dir
  | .rmdir dir _ _ => some dir
  | .iput _ => none
  | .caller _ => none

/-- What the calls check themselves: the body of a link is short enough, a directory to be removed
is deserted.  The other calls check nothing that the VFS has not checked. -/
def NameOp.Fits (d : Fs Nat) : NameOp → Prop
  | .symlink _ _ symname => symname.length + 1 ≤ d.vol.sbi.s_blocksize
  | .rmdir _ _ inode => Deserted (d.inode inode)
  | _ => True

/-- **While there is enough of everything, a call that the VFS allows succeeds**, but for a
`symlink` whose body is too long and an `rmdir` of a directory that holds a name: these fail.  Both
directions are needed for a caller that wants to know why a call failed. -/
theorem allowed_call_succeeds_iff (h : d.Consistent) (hb : d.Books) (ha : d.Ample) {op : NameOp}
    (hallowed : op.Allowed d) (hsmall : ∀ dir, op.parent = some dir → d.Small dir) :
    (op.call d).2 = none ↔ op.Fits d := by
  have hd := h.named.dirs
  cases op with
  | mknod dir name mode rdev =>
    exact iff_of_true (new_nondir_served hb hd ha hallowed.1 (hsmall dir rfl) rdev) trivial
  | create dir name mode =>
    exact iff_of_true (new_nondir_served hb hd ha hallowed.1 (hsmall dir rfl) 0) trivial
  | symlink dir name symname =>
    refine ⟨fun hok => ?_, gas_symlink_served hb hd ha hallowed (hsmall dir rfl)⟩
    by_contra hlong
    have hcall : (gas_symlink d dir name symname).2 = some .ENAMETOOLONG := by
      unfold gas_symlink
      rw [if_pos (not_le.mp hlong)]
    have hok : (gas_symlink d dir name symname).2 = none := hok
    rw [hcall] at hok
    simp at hok
  | link inode dir name =>
    obtain ⟨hnew, ⟨q, hq⟩, -⟩ := hallowed
    obtain ⟨i, hi⟩ := h.named.used hq
    exact iff_of_true (gas_link_served hb hd ha hi hnew (hsmall dir rfl)) trivial
  | mkdir dir name mode =>
    exact iff_of_true (gas_mkdir_served hb hd ha hallowed.2.1 hallowed.1 (hsmall dir rfl)) trivial
  | unlink dir name inode =>
    exact iff_of_true (gas_unlink_served hb hd ha hallowed.1 (hsmall dir rfl)) trivial
  | rmdir dir name inode =>
    refine ⟨fun hok => ?_, fun hdes => ?_⟩
    · have hcall : (NameOp.rmdir dir name inode).call d = (_, none) := Prod.ext rfl hok
      exact h.spares ha.room.pgread hallowed hcall
    · exact gas_rmdir_served h hb ha hallowed.1 (h.named.isDir_of_entry hallowed.1.entry hallowed.2) hdes
        (hsmall dir rfl)
  | iput inode => exact iff_of_true rfl trivial
  | caller env => exact iff_of_true rfl trivial

/-- In the root of a new file system a link can be made if its body is shorter than a block. -/
theorem megabyte_symlink_succeeds_iff : ∃ d : Fs Nat, d.Fresh ∧ ∀ symname : List UInt8,
    (gas_symlink d GAS_ROOT_INO [97] symname).2 = none ↔ symname.length + 1 ≤ 4096 := by
  obtain ⟨img, v, root, -, -, hfresh, henv, hsbi, hroom, hspare⟩ := mounted_megabyte
  obtain ⟨i, hone, -, -, -, -, hslots, -, hdir⟩ := hfresh.only
  have hbooks := hfresh.books (by
    rw [show (mounted_fs v root).vol.sbi = _ from hsbi]
    decide)
  have hc := hfresh.consistent
  have hample : (mounted_fs v root).Ample := ⟨fun n => by
    rw [show (mounted_fs v root).vol.env = _ from henv]
    rfl, hroom.mono (by omega), hspare.not_full hc.numbers.geometry⟩
  have hlive := (hdir GAS_ROOT_INO).mpr rfl
  have hnew : NewName (mounted_fs v root) GAS_ROOT_INO [97] := ⟨⟨by decide, by decide, by decide⟩, hlive, by
    rw [Fs.entry_of_isDir hlive, Fs.inode_of hone, hslots]
    decide⟩
  have hsmall : (mounted_fs v root).Small GAS_ROOT_INO := by
    have hlen := congrArg List.length hslots
    rw [length_slots] at hlen
    have hn : i.nslots = 15 * (i.i_size / 4096) + i.i_size % 4096 / 260 := rfl
    have hzero : i.i_size / 4096 = 0 := by
      rw [hn] at hlen
      simp only [List.length_cons, List.length_nil] at hlen
      omega
    rw [Fs.Small, Fs.inode_of hone, hzero, show (mounted_fs v root).vol.sbi = _ from hsbi]
    decide
  refine ⟨mounted_fs v root, hfresh, fun symname => ?_⟩
  have hallowed : (NameOp.symlink GAS_ROOT_INO [97] symname).Allowed (mounted_fs v root) := hnew
  have hiff := allowed_call_succeeds_iff hc hbooks hample hallowed fun dir hdir => by
      obtain rfl := Option.some.inj hdir
      exact hsmall
  have hfits : (NameOp.symlink GAS_ROOT_INO [97] symname).Fits (mounted_fs v root) ↔
      symname.length + 1 ≤ 4096 := by
    rw [NameOp.Fits, show (mounted_fs v root).vol.sbi = _ from hsbi]
    exact Iff.rfl
  exact hiff.trans hfits

end Calls

end GasFs
