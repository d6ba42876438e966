/-
# Unmounted and mounted again

`remount` says that a file system is the same after an unmount and a mount: the names, the link counts
and the types, the blocks each file holds and maps, the bytes of every file, the blocks lost, and the
numbers in use.  So what holds along a run from `mkfs.gas` on holds over any number of mounts
(`History.holds_once`).

`Again` and the steps down to the device are in `GasFs.Remount.Restored`; that there is a device for
every state is in `GasFs.Remount.Device`.  Here are the statements a user of the file system would
make.

A remount is a step of the run like any other.  What the memory alone knew is gone, such as an inode
marked as removed whose last reference was never dropped, and `Again` asks that there is none.
-/
import GasFs.Remount.Device

namespace GasFs

open Bytes PtrTree SlotTable Namespace RecordTable

/-! ## 1. What comes back

Each field of `SameAgain` is one question a user might ask after a mount: are the names there, the
links, the blocks, the bytes, and is `df` the same? -/

/-- What a file system should come back as: sound books, the same names and link counts, the same
blocks for each file, the same inodes and bytes, the same numbers in use, and no block more lost.
The blocks held are compared inode by inode. -/
structure SameAgain (d d' : Fs Nat) : Prop where
  books : d'.Books
  dirs : d'.DirsOk
  space : d'.space = d.space
  held : d'.held = d.held
  lost : d'.lost = d.lost
  mapped : ∀ k n, d'.mapped k n = d.mapped k n
  numbers : ∀ k < d.vol.inoLimit, d'.vol.inodeInUse k = d.vol.inodeInUse k
  inode : ∀ k i i', d.inodes k = some i → d'.inodes k = some i' → ReadsBack i false i'
  bytes : ∀ k i i' n a, d.inodes k = some i → d'.inodes k = some i' → has_blocks i.i_mode = true →
    a < 4096 → 4096 * n + a < i.i_size → i'.pages n a = i.pages n a

/-- **Unmounted and mounted again, a file system is what it was.** -/
theorem remount {dev : DevCodec} {d d' : Fs Nat} {ks : List Nat} {host : Host}
    (h : Again dev d ks host d') (hb : d.Books) (hdirs : d.DirsOk) : SameAgain d d' := by
  obtain ⟨hsync, hclean⟩ := h.synced hb
  obtain ⟨hbooks, -, hheld, hlost, hnumbers⟩ := h.books hb
  have hr := h.restored hb
  have hs := h.device
  have hlive := h.live
  have hfit := h.fits
  have hinodes := hsync.inodes
  have hspace : (sync dev d ks).space = d.space := Fs.space_congr fun k => by rw [hinodes]
  have hdirs' : (sync dev d ks).DirsOk := by
    intro k hk
    rw [Fs.isDir, hinodes] at hk
    rw [Fs.inode, hinodes]
    exact hdirs k hk
  have hmapped : ∀ k n, (sync dev d ks).mapped k n = d.mapped k n := fun k =>
    Fs.mapped_congr hb.sound.geometry hsync.kept.books.numbers.geometry hsync.kept.vol.sbi (hsync.slot k)
  have hb' := hsync.kept.books
  generalize sync dev d ks = d₁ at *
  rw [← hinodes] at hlive hfit
  obtain ⟨hspace', hdirs''⟩ := hr.space hb' hs hclean hfit hlive
  refine ⟨hbooks, hdirs'' hdirs', hspace'.trans hspace, hheld, hlost,
    fun k n => (hr.mapped hb' hs hclean hfit k n).trans (hmapped k n), hnumbers,
    fun k i i' hk hk' => ?_, fun k i i' n a hk hk' hblk ha hlt => ?_⟩
  · rw [← hinodes] at hk
    exact hr.readsBack hb' hs hclean hk (hfit k i hk) hk'
  · rw [← hinodes] at hk
    exact (hr.pages hb' hs hclean hfit hk hk' hblk).1 ha hlt

/-- A megabyte with a file in its root still has it there. -/
theorem megabyte_remount : ∃ (d d' : Fs Nat) (k : Nat), k ≠ GAS_ROOT_INO ∧
    d.entry (GAS_ROOT_INO, [97]) = some k ∧ d'.entry (GAS_ROOT_INO, [97]) = some k ∧ SameAgain d d' := by
  obtain ⟨d₀, d, d', ks, host, -, -, -, hc, hbooks, ⟨k, hk, hne⟩, -, -, hagain⟩ := megabyte_again
  have hsame := remount hagain hbooks hc.named.dirs
  have hentry : d'.entry = d.entry := congrArg Space.entry hsame.space
  exact ⟨d, d', k, hne, hk, by rw [hentry, hk], hsame⟩

/-! ## 2. Histories

`History` is a run with mounts in it.  The books survive a mount, so the induction has three cases:
the start, an operation, and a mount. -/

/-- Operations, and between them any number of unmounts and mounts.  The kernel may answer each
request of each operation as it likes. -/
inductive History (dev : DevCodec) (d₀ : Fs Nat) : Fs Nat → Prop
  | start : History dev d₀ d₀
  | step {d : Fs Nat} (h : History dev d₀ d) (op : SysOp) (hable : op.Able d) :
      History dev d₀ (op.run dev d)
  | again {d d' : Fs Nat} (h : History dev d₀ d) (ks : List Nat) (host : Host)
      (hagain : Again dev d ks host d') : History dev d₀ d'

/-- **The books are kept for good**, over any number of mounts. -/
theorem History.books {dev : DevCodec} {d₀ d : Fs Nat} (h : History dev d₀ d) (h₀ : d₀.Books) :
    d.Books ∧ d.vol.sbi = d₀.vol.sbi ∧ d₀.lost ⊆ d.lost ∧
      ∀ k < d.vol.inoLimit, d.Astray k → d₀.Astray k := by
  induction h with
  | start => exact ⟨h₀, rfl, Set.Subset.refl _, fun _ _ hk => hk⟩
  | @step d₁ _ op hable ih =>
    obtain ⟨hb, hsbi, hlost, hstray⟩ := ih
    obtain ⟨hb', hsbi', -, hlost', hstray', -⟩ := hb.sys_step dev hable
    refine ⟨hb', hsbi'.trans hsbi, hlost.trans hlost', fun k hk hs => hstray k ?_ (hstray' k hs)⟩
    rw [Vol.inoLimit, hsbi'] at hk
    exact hk
  | @again d₁ d₂ _ ks host hagain ih =>
    obtain ⟨hb, hsbi, hlost, hstray⟩ := ih
    obtain ⟨hb', hsbi', -, hlost', hnumbers⟩ := hagain.books hb
    refine ⟨hb', hsbi'.trans hsbi, hlost.trans hlost'.ge, fun k hk hs => hstray k ?_ ⟨?_, fun hin => ?_⟩⟩
    · rw [Vol.inoLimit, hsbi'] at hk
      exact hk
    · rw [← hnumbers k (by rw [Vol.inoLimit, ← hsbi']; exact hk)]
      exact hs.1
    · exact hs.2 ((hagain.core k).mpr hin)

/-- **Nothing is held twice, and nothing lost is found.**  From a new file system on, in any order of
operations, whatever fails on the way and however often it is mounted, a data block is held by one slot
of one inode at most and is marked; the four blocks `mkfs.gas` loses stay lost; and a number is in use
exactly if an inode in core has it, or it is none that can be given out. -/
theorem History.holds_once {dev : DevCodec} {d₀ d : Fs Nat} (h : History dev d₀ d) (h₀ : d₀.Fresh)
    (hsize : d₀.vol.sbi.s_nblocks ≤ 1073741824) :
    d.Sound ∧ d₀.lost ⊆ d.lost ∧ d₀.lost.ncard = 4 ∧
      ∀ k < d.vol.inoLimit, d.vol.inodeInUse k = true ↔
        k = 0 ∨ d.vol.sbi.s_ninodes ≤ k ∨ d.InCore k := by
  have hstart : SysRun dev (fun _ => True) d₀ d₀ := .start
  obtain ⟨hbooks, -, -, -, -, hfour, hin⟩ := hstart.from_fresh h₀ hsize
  obtain ⟨hb, hsbi, hsub, hstray⟩ := h.books hbooks
  refine ⟨hb.sound, hsub, hfour, fun k hk => ⟨fun hu => ?_, ?_⟩⟩
  · by_cases hcore : d.InCore k
    · exact Or.inr (Or.inr hcore)
    · obtain ⟨hu₀, hno⟩ := hstray k hk ⟨hu, hcore⟩
      rw [Vol.inoLimit, hsbi] at hk
      rw [hsbi, ← or_assoc]
      exact Or.inl (((or_assoc.mpr ((hin k hk).mp hu₀)).resolve_right hno))
  · rintro (rfl | hge | ⟨j, hj⟩)
    · exact hb.numbers.zero
    · exact hb.numbered.padded k hk fun hlt => absurd hlt.2.1 (not_lt_of_ge hge)
    · exact (hb.numbers.ino k j hj).2.2.2

/-- A file made in a megabyte, an unmount and a mount, and a directory beside it. -/
theorem megabyte_holds_once : ∃ (d₀ d : Fs Nat) (n : Nat), d.Sound ∧ d₀.lost ⊆ d.lost ∧
    d₀.lost.ncard = 4 ∧ 1 < n ∧ n ≤ d.vol.inoLimit ∧ ∀ k < n, d.vol.inodeInUse k = true ↔
      k = 0 ∨ d.vol.sbi.s_ninodes ≤ k ∨ d.InCore k := by
  obtain ⟨d₀, d, d', ks, host, hfresh, hsbi, hcall, -, -, -, hroot, hroot', hagain⟩ := megabyte_again
  have hsize : d₀.vol.sbi.s_nblocks ≤ 1073741824 := by
    rw [hsbi]
    decide
  have hstep : History linux_dev d₀ d := by
    have hstart : History linux_dev d₀ d₀ := .start
    have h := hstart.step (.name (.create GAS_ROOT_INO [97] S_IFREG)) hroot
    rw [SysOp.run, NameOp.call, hcall, if_pos rfl] at h
    exact h
  have hrun : History linux_dev d₀ _ :=
    (hstep.again _ host hagain).step (.name (.mkdir GAS_ROOT_INO [98] 0)) ⟨hroot', rfl⟩
  obtain ⟨h1, h2, h3, h4⟩ := hrun.holds_once hfresh hsize
  refine ⟨_, _, _, h1, h2, h3, ?_, le_refl _, h4⟩
  rw [Vol.inoLimit, (hrun.books (hfresh.books hsize)).2.1, hsbi]
  decide

end GasFs
