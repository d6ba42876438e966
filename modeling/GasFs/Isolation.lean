/-
# Files are isolated

What the operations on other inodes leave of a file: its record, its slots, and the contents of
every block it holds (`Fs.SameFile`).  One step touches one inode, `Fs.StepOf`; the books say that
no block of another inode is among the blocks it writes (`Fs.StepOf.others`), and a run of such steps
composes (`Fs.isolated`).

A block changes hands only through the map: when a file comes to map a block it did not map before,
the step is a call of `gas_get_block` that reports the block as new (`Fs.StepOf.maps_new`).

**The exception is an eviction.**  `gas_free_inode` means to refuse a number without a record, but it
compares with `>`, so the number `s_ninodes` passes.  The word it then clears for the inode's record
is the first of the block behind the list, which may be the first data block of a file
(`Fs.isolation_fails`).  So the runs considered are those whose evictions spare the inodes that are
left, `Fs.Spares`:

* the guard refuses the number (0, a number above `s_ninodes`, or one the map has no bit for); or
* the word that is cleared is in no block another inode holds, as for every number with a record; or
* that word is zero already.

The condition speaks of the state in front of the eviction.  Nothing is asked of the numbers of the
inodes otherwise, and nothing of the layout of the inode list.

The argument has the same form for every operation.  The step of an inode writes the blocks of its
own tree, blocks it has just taken from the map, and its record in the inode list.  A sound file
system says that none of these is held by another inode, so the words of the other blocks stay; and
the slots of a file are determined by its record and those words (`Fs.SameFile.of_words`).
-/
import GasFs.FileCut

namespace GasFs

open PtrTree

variable {K : Type} [DecidableEq K]

/-! ## 1. Steps of one inode

The key of the inode a step is made on is part of the step, so that "an operation on another inode"
can be said. -/

/-- The operations on a mounted file system, by the inode they are made on; `E` says which inodes
may be evicted, and under which number.  Making an inode, opening one and growing or cutting its
tree are steps on that inode. -/
inductive Fs.StepOf (E : Fs K → K → Nat → Prop) (d : Fs K) : Option K → Fs K → Prop
  | get_block (k : K) (i : Inode) (block : Nat) (create : Bool) (hk : d.inodes k = some i)
      (hb : has_blocks i.i_mode = true) :
      Fs.StepOf E d (some k) (d.set k (gas_get_block ⟨d.vol, i, 0⟩ block create).c)
  | truncate (k : K) (i : Inode) (size : Nat) (hk : d.inodes k = some i)
      (hb : has_blocks i.i_mode = true) :
      Fs.StepOf E d (some k) (d.set k (gas_truncate_inode ⟨d.vol, { i with i_size := size }, 0⟩))
  | evict (k : K) (i : Inode) (hk : d.inodes k = some i) (hl : i.i_nlink = 0) (hE : E d k i.i_ino) :
      Fs.StepOf E d (some k)
        ⟨(gas_evict_inode ⟨d.vol, i, 0⟩).v, Function.update d.inodes k none⟩
  | new_inode (k : K) (dir : Inode) (mode : BitVec 16) (rdev : Nat) (inode : Inode) (v : Vol)
      (hk : d.inodes k = none) (h : gas_new_inode d.vol dir mode = (none, some inode, v)) :
      Fs.StepOf E d (some k) ⟨v, Function.update d.inodes k (some (gas_set_inode inode rdev))⟩
  | no_inode (dir : Inode) (mode : BitVec 16) (e : Errno) (v : Vol)
      (h : gas_new_inode d.vol dir mode = (some e, none, v)) : Fs.StepOf E d none ⟨v, d.inodes⟩
  | write (k : K) (i : Inode) (block : Nat) (f : Nat → Nat) (hk : d.inodes k = some i)
      (hb : has_blocks i.i_mode = true) (hp : block_to_path d.vol block ≠ [])
      (hne : d.slot k (block_to_path d.vol block) ≠ 0) :
      Fs.StepOf E d (some k) ⟨d.vol.overwrite (d.slot k (block_to_path d.vol block)) f, d.inodes⟩

/-- An operation on an inode other than `a`, which may be a new one. -/
def Fs.Beside (E : Fs K → K → Nat → Prop) (a : K) (d d' : Fs K) : Prop :=
  ∃ k, k ≠ some a ∧ d.StepOf E k d'

/-- Any number of such operations. -/
abbrev Fs.RunBeside (E : Fs K → K → Nat → Prop) (a : K) : Fs K → Fs K → Prop :=
  Relation.ReflTransGen (Fs.Beside E a)

/-- A step whose eviction spares the other inodes keeps the file system sound. -/
theorem Fs.StepOf.sound {d d' : Fs K} {k : Option K} (hstep : d.StepOf Fs.Spares k d')
    (h : d.Sound) : d'.Sound := by
  cases hstep with
  | get_block k i block create hk hb =>
    exact h.own hk hb (gas_get_block_ownStep (h.treeOk hk hb) block create)
  | truncate k i size hk hb =>
    exact h.own hk hb ((gas_truncate_inode_ownStep ((h.treeOk hk hb).withInode
      (i := { i with i_size := size }) rfl)).of_withInode (c := ⟨d.vol, i, 0⟩) rfl rfl rfl)
  | evict k i hk hl hs => exact (h.evict hk hl hs).1
  | new_inode k dir mode rdev inode v hk heq => exact (h.new_inode hk heq _).1
  | no_inode dir mode e v heq => exact (h.no_inode heq).1
  | write k i block f hk hb hp hne =>
    obtain ⟨c', hs, he⟩ := h.write f hk hb hp hne
    rw [← he]
    exact h.own hk hb hs

/-! ## 2. What a file keeps

`Fs.SameFile` is a relation between two states.  It is transitive, which is all that a run needs. -/

/-- The record, the slots and the contents of the blocks held are the same.  The geometry is part of
it, since the slots are read with it. -/
structure Fs.SameFile (a : K) (d d' : Fs K) : Prop where
  inode : d'.inodes a = d.inodes a
  sbi : d'.vol.sbi = d.vol.sbi
  bits : d'.vol.s_blocksize_bits = d.vol.s_blocksize_bits
  slot : ∀ q, shape.IsPath q → d'.slot a q = d.slot a q
  words : ∀ b ∈ d.held a, d'.vol.words b = d.vol.words b

section
variable {a : K} {d d' d'' : Fs K}

omit [DecidableEq K] in
theorem Fs.SameFile.refl (a : K) (d : Fs K) : d.SameFile a d :=
  ⟨rfl, rfl, rfl, fun _ _ => rfl, fun _ _ => rfl⟩

omit [DecidableEq K] in
theorem Fs.SameFile.held (h : d.SameFile a d') : d'.held a = d.held a :=
  Fs.held_congr h.slot

omit [DecidableEq K] in
theorem Fs.SameFile.trans (h : d.SameFile a d') (h' : d'.SameFile a d'') : d.SameFile a d'' where
  inode := h'.inode.trans h.inode
  sbi := h'.sbi.trans h.sbi
  bits := h'.bits.trans h.bits
  slot q hq := (h'.slot q hq).trans (h.slot q hq)
  words b hb := (h'.words b (by rw [h.held]; exact hb)).trans (h.words b hb)

omit [DecidableEq K] in
/-- The slots are determined by the record and the blocks held: a walk from the record reads no
other block. -/
theorem Fs.SameFile.of_words (hi : d'.inodes a = d.inodes a) (hs : d'.vol.sbi = d.vol.sbi)
    (hbits : d'.vol.s_blocksize_bits = d.vol.s_blocksize_bits)
    (hw : ∀ b ∈ d.held a, d'.vol.words b = d.vol.words b) : d.SameFile a d' := by
  refine ⟨hi, hs, hbits, fun q hq => ?_, hw⟩
  unfold Fs.slot
  rw [hi]
  cases ha : d.inodes a with
  | none => rfl
  | some i =>
    dsimp only
    by_cases hb : has_blocks i.i_mode = true
    · rw [if_pos hb, if_pos hb]
      refine PtrTree.val_congr (S := shape) (fun r hr hne j _ => ?_) q hq
      exact congrFun (hw _ ⟨hne, r, hr, d.slot_of_blocks ha hb r⟩) j
    · rw [if_neg hb, if_neg hb]

omit [DecidableEq K] in
/-- A file keeps its finite map. -/
theorem Fs.SameFile.mapped (h : d.SameFile a d') (hg : TreeGeometry d.vol) (block : Nat) :
    d'.mapped a block = d.mapped a block := by
  have hpath : block_to_path d'.vol block = block_to_path d.vol block := by
    unfold block_to_path INDIRCOUNT
    rw [h.sbi, h.bits]
  rw [Fs.mapped, Fs.mapped, hpath]
  by_cases hnil : block_to_path d.vol block = []
  · have h0 : ∀ d : Fs K, d.slot a [] = 0 := fun d => by
      unfold Fs.slot
      split
      · split <;> rfl
      · rfl
    rw [hnil, h0, h0]
  · rw [h.slot _ (block_to_path_isLeaf hg hnil).1]

/-- The owner of another tree leaves the file alone.  Whatever block its step wrote was its own or
free, and neither is held by the file. -/
theorem Fs.Sound.sameFile_own {k : K} {i : Inode} {c' : Ctx} (h : d.Sound)
    (hk : d.inodes k = some i) (hb : has_blocks i.i_mode = true) (hs : OwnStep ⟨d.vol, i, 0⟩ c')
    (hne : k ≠ a) : d.SameFile a (d.set k c') := by
  refine .of_words (by simp [Fs.set, hne.symm]) hs.vol.sbi ?_ fun b hbm => ?_
  · obtain ⟨_, _, _, _, he⟩ := hs.vol
    rw [Fs.set, he]
  · refine (hs.keep b ((Fs.sound_iff.mp h).2.2.2.marked a hbm).2 fun hh => ?_).2
    rw [← d.mem_held hk hb] at hh
    exact Set.disjoint_left.mp ((Fs.sound_iff.mp h).2.2.2.apart a k hne.symm) hbm hh

omit [DecidableEq K] in
/-- Writing blocks that nobody holds leaves every file alone. -/
theorem Fs.Aside.sameFile {v : Vol} {inodes : K → Option Inode} (hv : d.Aside v)
    (hi : inodes a = d.inodes a) : d.SameFile a ⟨v, inodes⟩ := by
  obtain ⟨iam, hint, words, tick, rfl, hw⟩ := hv
  exact .of_words hi rfl rfl (hw a)

/-- So does the eviction of another inode: first its tree goes, then its number. -/
theorem Fs.Sound.sameFile_evict {k : K} {i : Inode} (h : d.Sound) (hk : d.inodes k = some i)
    (hl : i.i_nlink = 0) (hs : d.Spares k i.i_ino) (hne : k ≠ a) :
    d.SameFile a ⟨(gas_evict_inode ⟨d.vol, i, 0⟩).v, Function.update d.inodes k none⟩ := by
  obtain ⟨c', hv, hino, hu⟩ := h.uproot hk hl
  rw [hv]
  have htree : d.SameFile a ⟨c'.v, Function.update d.inodes k none⟩ := by
    obtain ⟨_, _, _, _, he⟩ := hu.vol
    exact .of_words (Function.update_of_ne hne.symm _ _) hu.vol.sbi (by dsimp only; rw [he])
      (hu.words a hne.symm)
  exact htree.trans ((hu.aside hs hino).sameFile rfl)

/-- **A step leaves every inode but its own alone.** One case for each operation. -/
theorem Fs.StepOf.others {k : Option K} (hstep : d.StepOf Fs.Spares k d') (h : d.Sound)
    (hne : k ≠ some a) : d.SameFile a d' := by
  cases hstep with
  | get_block k i block create hk hb =>
    exact h.sameFile_own hk hb (gas_get_block_ownStep (h.treeOk hk hb) block create)
      fun e => hne (congrArg some e)
  | truncate k i size hk hb =>
    have hs := (gas_truncate_inode_ownStep ((h.treeOk hk hb).withInode
      (i := { i with i_size := size }) rfl)).of_withInode (c := ⟨d.vol, i, 0⟩) rfl rfl rfl
    exact h.sameFile_own hk hb hs fun e => hne (congrArg some e)
  | evict k i hk hl hs => exact h.sameFile_evict hk hl hs fun e => hne (congrArg some e)
  | new_inode k dir mode rdev inode v hk heq =>
    have hka : a ≠ k := fun e => hne (congrArg some e.symm)
    exact (Fs.new_inode_aside heq).sameFile (Function.update_of_ne hka _ _)
  | no_inode dir mode e v heq => exact (Fs.new_inode_aside heq).sameFile rfl
  | write k i block f hk hb hp hne' =>
    have hka : k ≠ a := fun e => hne (congrArg some e)
    refine .of_words rfl rfl rfl fun b hbm => ?_
    refine Function.update_of_ne (f := d.vol.words) (fun e => ?_) f
    subst e
    exact Set.disjoint_left.mp ((Fs.sound_iff.mp h).2.2.2.apart a k hka.symm) hbm
      ⟨hne', _, (block_to_path_isLeaf h.geometry hp).1, rfl⟩

end

/-! ## 3. How a block changes hands

This is the other half of isolation.  A block that is freed by one file may be mapped by another one
later, but only through an allocation, and the caller is told so: `gas_get_block` sets the buffer
new, and the kernel zeroes it before anybody reads it. -/

/-- A call that maps the buffer found the block, or reports it as new. -/
theorem gas_get_block_new {c : Ctx} (hc : TreeOk c) {block b : Nat}
    (hm : (gas_get_block c block true).mapped = some b)
    (hz : c.val (block_to_path c.v block) ≠ b) : (gas_get_block c block true).isNew = true := by
  by_cases hnil : block_to_path c.v block = []
  · simp [gas_get_block, hnil] at hm
  have hleaf := block_to_path_isLeaf hc.geometry hnil
  obtain ⟨r, hr, -⟩ := gas_get_block_loop_create hc hleaf
  have heq : gas_get_block c block true = r := by
    have h1 := hr 0
    unfold gas_get_block
    generalize block_to_path c.v block = o at hnil h1
    cases o with
    | nil => exact absurd rfl hnil
    | cons i t => simp only [h1, Option.getD_some]
  rw [heq] at hm ⊢
  have hloop := hr 0
  have hB := get_branch_spec c hnil
  rw [gas_get_block_loop] at hloop
  generalize get_branch c (block_to_path c.v block) = g at hloop hB
  split at hloop
  · -- found
    rename_i hn
    rw [← Option.some.inj hloop] at hm
    rcases hB.outcome with ⟨-, -, hl, -⟩ | ⟨hn', -⟩ | ⟨hn', -⟩
    · have hlast := hB.last.2
      rw [hl, List.take_length] at hlast
      exact absurd ((hlast.symm.trans (Option.some.inj hm))) hz
    · rw [hn] at hn'
      exact absurd hn' (by simp)
    · rw [hn] at hn'
      exact absurd hn' (by simp)
  · split at hloop
    · rw [← Option.some.inj hloop] at hm
      exact absurd hm (by simp)
    · split at hloop
      · simp [gas_get_block_loop] at hloop
      · split at hloop
        · rw [← Option.some.inj hloop] at hm
          exact absurd hm (by simp)
        · split at hloop
          · simp [gas_get_block_loop] at hloop
          · rw [← Option.some.inj hloop]

section
variable {d d' : Fs K}

omit [DecidableEq K] in
theorem Fs.mapped_eq_some {k : K} {block b : Nat} :
    d.mapped k block = some b ↔ d.slot k (block_to_path d.vol block) = b ∧ b ≠ 0 := by
  unfold Fs.mapped
  dsimp only
  by_cases hz : d.slot k (block_to_path d.vol block) = 0
  · rw [if_pos hz, hz]
    exact iff_of_false (by simp) fun he => he.2 he.1.symm
  · rw [if_neg hz, Option.some.injEq]
    exact ⟨fun he => ⟨he, he ▸ hz⟩, fun he => he.1⟩

/-- A call that makes an inode map a block it did not map before, reported as new.  The buffer is
then zeroed by the kernel, so nothing of the block's former contents is seen. -/
def Fs.MapsNew (d : Fs K) (k : K) (block b : Nat) (d' : Fs K) : Prop :=
  ∃ i, d.inodes k = some i ∧ d.mapped k block ≠ some b ∧
    d' = d.set k (gas_get_block ⟨d.vol, i, 0⟩ block true).c ∧
    (gas_get_block ⟨d.vol, i, 0⟩ block true).mapped = some b ∧
    (gas_get_block ⟨d.vol, i, 0⟩ block true).isNew = true

/-- What the inode of a step maps, by the tree left behind. -/
theorem Fs.mapped_set {k : K} {c' : Ctx} {block b : Nat} (hb : has_blocks c'.inode.i_mode = true)
    (hvol : BlockStep d.vol c'.v) : (d.set k c').mapped k block = some b ↔
      c'.val (block_to_path d.vol block) = b ∧ b ≠ 0 := by
  rw [Fs.mapped_eq_some, show (d.set k c').vol = c'.v from rfl, block_to_path_step hvol,
    (d.set k c').slot_of_blocks (i := c'.inode) (by simp [Fs.set]) hb]
  exact Iff.rfl

/-- Slots that only lose pointers map no new block. -/
theorem Fs.mapped_of_val {k : K} {i : Inode} {c' : Ctx} {block b : Nat}
    (hk : d.inodes k = some i) (hb : has_blocks i.i_mode = true) (hmode : c'.inode.i_mode = i.i_mode)
    (hvol : BlockStep d.vol c'.v) (hg : TreeGeometry d.vol)
    (hval : ∀ q, shape.IsPath q → c'.val q = Ctx.val ⟨d.vol, i, 0⟩ q ∨ c'.val q = 0)
    (hm : (d.set k c').mapped k block = some b) : d.mapped k block = some b := by
  obtain ⟨hs, hb0⟩ := (Fs.mapped_set (by rw [hmode]; exact hb) hvol).mp hm
  rw [Fs.mapped_eq_some, d.slot_of_blocks hk hb]
  have hnil : block_to_path d.vol block ≠ [] := fun e => by
    rw [e] at hs
    exact hb0 hs.symm
  rcases hval _ (block_to_path_isLeaf hg hnil).1 with h1 | h1
  · exact ⟨h1.symm.trans hs, hb0⟩
  · exact absurd (hs.symm.trans h1) hb0

/-- Two blocks whose paths are slots of the tree have one path only if they are one block. -/
theorem block_to_path_unique {v : Vol} (hg : Geometry v) {n m : Nat} (hn : block_to_path v n ≠ [])
    (hm : block_to_path v m ≠ []) (he : block_to_path v n = block_to_path v m) : n = m := by
  have hlt : ∀ {x : Nat}, block_to_path v x ≠ [] → x < v.sbi.s_nblocks := by
    intro x hx
    by_contra hge
    exact hx ((block_to_path_eq_nil_iff hg).mpr (Nat.not_lt.mp hge))
  exact block_to_path_inj hg (hlt hn) (hlt hm) he

/-- A call of `gas_get_block` after which a block is mapped that was not: it was one with `create`, for
that block, and reported the block as new. -/
theorem Fs.Sound.get_block_maps_new (h : d.Sound) {k : K} {i : Inode} (hk : d.inodes k = some i)
    (hb : has_blocks i.i_mode = true) {block0 block b : Nat} {create : Bool}
    (hm : (d.set k (gas_get_block ⟨d.vol, i, 0⟩ block0 create).c).mapped k block = some b)
    (hm0 : d.mapped k block ≠ some b) :
    d.MapsNew k block b (d.set k (gas_get_block ⟨d.vol, i, 0⟩ block0 create).c) := by
  have hc := h.treeOk hk hb
  have hown := gas_get_block_ownStep hc block0 create
  have hkeep := fun hval => hm0 (Fs.mapped_of_val hk hb hown.mode hown.vol h.geometry hval hm)
  cases create with
  | false => exact absurd (fun q _ => Or.inl ((gas_get_block_lookup _ block0).1.val q)) hkeep
  | true =>
    obtain ⟨hcr, hnil⟩ := gas_get_block_create hc block0
    cases hcr with
    | failed hs _ _ => exact absurd (fun q hq => Or.inl (hs.val hc hq)) hkeep
    | found hs _ _ _ => exact absurd (fun q hq => Or.inl (hs.val hc hq)) hkeep
    | grafted m nb hg hmap he =>
      have hp0 : block_to_path d.vol block0 ≠ [] := fun e => hnil e he
      obtain ⟨hs', hb0⟩ := (Fs.mapped_set (by rw [hown.mode]; exact hb) hown.vol).mp hm
      have hp : block_to_path d.vol block ≠ [] := fun e => by
        rw [e] at hs'
        exact hb0 hs'.symm
      have hleaf := block_to_path_isLeaf h.geometry hp
      have hold : Ctx.val ⟨d.vol, i, 0⟩ (block_to_path d.vol block) ≠ b := by
        intro hval
        refine hm0 ?_
        rw [Fs.mapped_eq_some, d.slot_of_blocks hk hb]
        exact ⟨hval, hb0⟩
      rcases hg.val_cases hleaf.1 with ⟨h1, -⟩ | ⟨hpre, -⟩
      · exact absurd (h1.symm.trans hs') hold
      · -- the slot that changed is the slot of the block asked for
        have hpath := isLeaf_prefix_eq (block_to_path_isLeaf h.geometry hp0) hleaf hpre
        obtain rfl := block_to_path_unique h.geometry.toGeometry hp hp0 hpath
        have hmap' : (gas_get_block ⟨d.vol, i, 0⟩ block true).mapped = some b := by
          rw [hmap]
          exact congrArg some hs'
        exact ⟨i, hk, hm0, rfl, hmap', gas_get_block_new hc hmap' hold⟩

/-- **A file comes to map a block by a call of `gas_get_block` that reports it as new.** The other
operations only take pointers away from a tree, or write an inode that is not in core yet. -/
theorem Fs.StepOf.maps_new {k0 : Option K} (hstep : d.StepOf Fs.Spares k0 d') (h : d.Sound) {k : K}
    {block b : Nat} (hm : d'.mapped k block = some b) (hm0 : d.mapped k block ≠ some b) :
    d.MapsNew k block b d' := by
  by_cases hk0 : k0 = some k
  · subst hk0
    cases hstep with
    | get_block k i block0 create hk hb => exact h.get_block_maps_new hk hb hm hm0
    | truncate k i size hk hb =>
      have hok : TreeOk ⟨d.vol, { i with i_size := size }, 0⟩ := (h.treeOk hk hb).withInode rfl
      obtain ⟨Z, hcut, -⟩ := gas_truncate_inode_is_cut hok
      exact absurd (Fs.mapped_of_val hk hb hcut.inode.mode hcut.vol h.geometry
        (fun q hq => hcut.sub q hq) hm) hm0
    | evict k i hk hl hs =>
      rw [Fs.mapped_eq_some] at hm
      obtain ⟨hs, hb0⟩ := hm
      simp only [Fs.slot, Function.update_self] at hs
      exact absurd hs.symm hb0
    | new_inode k dir mode rdev inode v hk heq =>
      rw [Fs.mapped_eq_some] at hm
      obtain ⟨hs, hb0⟩ := hm
      have hzero := (gas_new_inode_result d.vol dir mode).2 inode (by rw [heq])
      simp only [Fs.slot, Function.update_self, Ctx.val, (gas_set_inode_fields inode rdev).2, hzero,
        val_no_pointers, ite_self] at hs
      exact absurd hs.symm hb0
    | write k i block0 f hk hb hp hne =>
      have hslot := d.slot_of_blocks hk hb (block_to_path d.vol block0)
      rw [hslot] at hne hm
      have hcut := overwrite_cut (h.treeOk hk hb) (block_to_path_isLeaf h.geometry hp) hne f
      refine absurd (Fs.mapped_of_val hk hb rfl hcut.vol h.geometry (fun q hq => hcut.sub q hq) ?_) hm0
      rw [← hm]
      simp [Fs.set, ← hk]
  · have hs := hstep.others h hk0
    rw [hs.mapped h.geometry] at hm
    exact absurd hm hm0

end

/-! ## 4. Runs

Both halves over any number of steps. -/

section
variable {d d' : Fs K} {a : K}

/-- What holds along a run beside `a`. -/
theorem Fs.RunBeside.invariant (h : d.Sound) (run : Fs.RunBeside Fs.Spares a d d') :
    d'.Sound ∧ d.SameFile a d' := by
  induction run with
  | refl => exact ⟨h, .refl a d⟩
  | tail _ hstep ih =>
    obtain ⟨h1, h2⟩ := ih
    obtain ⟨k, hne, hs⟩ := hstep
    exact ⟨hs.sound h1, h2.trans (hs.others h1 hne)⟩

/-- A block mapped at the end of a run, but not at its start, was mapped by a call in between.  The
induction goes back from the end of the run to the last step before which the block was not
mapped. -/
theorem Fs.RunBeside.maps_new (h : d.Sound) (run : Fs.RunBeside Fs.Spares a d d') {k : K}
    {block b : Nat} (hm : d'.mapped k block = some b) (hm0 : d.mapped k block ≠ some b) :
    ∃ d1 d2, Fs.RunBeside Fs.Spares a d d1 ∧ d1.MapsNew k block b d2 ∧
      Fs.RunBeside Fs.Spares a d2 d' := by
  induction run with
  | refl => exact absurd hm hm0
  | @tail e e' run1 hstep ih =>
    by_cases hme : e.mapped k block = some b
    · obtain ⟨d1, d2, r1, hnew, r2⟩ := ih hme
      exact ⟨d1, d2, r1, hnew, r2.tail hstep⟩
    · have h1 := (Fs.RunBeside.invariant h run1).1
      obtain ⟨k0, -, hs⟩ := hstep
      exact ⟨e, e', run1, hs.maps_new h1 hm hme, .refl⟩

/-- **Files are isolated where evictions spare the others.**  A run of operations on other inodes
leaves the map of `a` and the contents of the blocks it holds as they were.  A block that one inode
held at the start and another maps at the end was mapped in between by a call that reported it as
new. -/
theorem Fs.isolated (h : d.Sound) (run : Fs.RunBeside Fs.Spares a d d') :
    (∀ block, d'.mapped a block = d.mapped a block) ∧
      (∀ b ∈ d.held a, d'.vol.words b = d.vol.words b) ∧
      ∀ k k' block b, k' ≠ k → b ∈ d.held k → d'.mapped k' block = some b →
        ∃ d1 d2, Fs.RunBeside Fs.Spares a d d1 ∧ d1.MapsNew k' block b d2 ∧
          Fs.RunBeside Fs.Spares a d2 d' := by
  obtain ⟨-, hs⟩ := run.invariant h
  refine ⟨hs.mapped h.geometry, hs.words, fun k k' block b hne hb hm => run.maps_new h hm ?_⟩
  intro hm0
  obtain ⟨he, hb0⟩ := Fs.mapped_eq_some.mp hm0
  have hnil : block_to_path d.vol block ≠ [] := fun e => by
    rw [e] at he
    have h0 : d.slot k' [] = 0 := by
      unfold Fs.slot
      split
      · split <;> rfl
      · rfl
    exact hb0 (he.symm.trans h0)
  exact Set.disjoint_left.mp ((Fs.sound_iff.mp h).2.2.2.apart k k' hne.symm) hb
    ⟨hb0, _, (block_to_path_isLeaf h.geometry hnil).1, he⟩

end

/-! ## 5. A file beside a device

The smallest setting in which an eviction can do harm.  Devices have no blocks, so nothing but the
number matters. -/

/-- A file of two blocks, of which the size leaves one. -/
def flat_inode : Inode :=
  { small_inode 2 S_IFREG 1 fun i => if i = 0 then 4 else if i = 1 then 5 else 0 with i_size := 4096 }

theorem flat_val (v : Vol) {q : List Nat} (hq : shape.IsPath q) :
    Ctx.val ⟨v, flat_inode, 0⟩ q = if q = [0] then 4 else if q = [1] then 5 else 0 := by
  match q, hq with
  | [], hq => exact hq.elim
  | [i], _ => simp [Ctx.val, val, flat_inode, small_inode]
  | i :: j :: r, hq =>
    obtain ⟨-, hl, -⟩ := isPath_cons.mp hq
    have h0 : i ≠ 0 ∧ i ≠ 1 := by
      simp only [List.length_cons] at hl
      omega
    simp [Ctx.val, val, flat_inode, small_inode, h0.1, h0.2]

/-- The two blocks of the small volume in one file, beside an unlinked character device. -/
def beside_fs (ino : Nat) : Fs Bool where
  vol := small_vol true 5
  inodes k := some (if k then flat_inode else small_inode ino S_IFCHR 0 fun _ => 0)

theorem beside_slot (ino : Nat) (k : Bool) {q : List Nat} (hq : shape.IsPath q) :
    (beside_fs ino).slot k q =
      if k = true ∧ q = [0] then 4 else if k = true ∧ q = [1] then 5 else 0 := by
  cases k with
  | false =>
    have hb : has_blocks S_IFCHR = false := by decide
    simp [Fs.slot, beside_fs, small_inode, hb]
  | true =>
    have h := (Fs.slot_of_blocks (d := beside_fs ino) (k := true) (i := flat_inode) rfl (by decide) q)
    rw [h]
    simpa using flat_val (beside_fs ino).vol hq

theorem beside_accounted (ino : Nat) : (beside_fs ino).Accounted := by
  have hz : ∀ b, (beside_fs ino).vol.InZone b ↔ 4 ≤ b ∧ b < 6 := fun _ => Iff.rfl
  refine ⟨⟨small_geometry true 5, fun _ _ _ => rfl, ?_, ?_, fun _ _ _ _ => rfl⟩, ?_⟩
  · intro k k' q q' hq hq' hne he
    rw [beside_slot ino k hq] at hne he
    rw [beside_slot ino k' hq'] at he
    split_ifs at hne he with h1 h2 h3 h4 h5 h6 <;> simp_all
  · intro k q hq hne
    rw [beside_slot ino k hq] at hne ⊢
    rw [hz]
    split_ifs at hne ⊢ <;> omega
  · intro b hb _
    rw [hz] at hb
    have h0 : shape.IsPath [0] := isPath_cons.mpr ⟨by omega, by simp, by simp⟩
    have h1 : shape.IsPath [1] := isPath_cons.mpr ⟨by omega, by simp, by simp⟩
    by_cases h4 : b = 4
    · exact ⟨true, [0], h0, by rw [beside_slot ino true h0]; simp [h4]⟩
    · exact ⟨true, [1], h1, by rw [beside_slot ino true h1]; simp; omega⟩

/-- The record of a number below `s_ninodes` is in the inode list, which no inode holds. -/
theorem beside_spares : (beside_fs 3).Spares false 3 := by
  refine Or.inr (Or.inl fun k' _ hb => ?_)
  have hzone := ((Fs.sound_iff.mp (beside_accounted 3).1).2.2.2.marked k' hb).1
  exact absurd hzone.1 (by decide)

/-- Evicting the device leaves the file alone. -/
theorem beside_isolated : Fs.mapped ⟨(gas_evict_inode ⟨small_vol true 5,
      small_inode 3 S_IFCHR 0 fun _ => 0, 0⟩).v, Function.update (beside_fs 3).inodes false none⟩ true
      0 = (beside_fs 3).mapped true 0 :=
  (Fs.isolated (beside_accounted 3).1 (Relation.ReflTransGen.single
    ⟨some false, by decide, .evict false (small_inode 3 S_IFCHR 0 fun _ => 0) rfl rfl
      beside_spares⟩)).1 0

/-- **Files are not isolated from every eviction.**  Evicting an unlinked device with the number
`s_ninodes` clears the first word of the first data block, which another file maps. -/
theorem Fs.isolation_fails : ∃ d d' : Fs Bool, d.Accounted ∧
    (∀ n, d.vol.env.bread n = true) ∧ Fs.RunBeside (fun _ _ _ => True) true d d' ∧
      (∃ i, d.inodes false = some i ∧ i.i_ino = d.vol.sbi.s_ninodes) ∧
      d.mapped true 0 = some 4 ∧ d'.vol.words 4 0 ≠ d.vol.words 4 0 := by
  refine ⟨beside_fs 64, _, beside_accounted 64, fun _ => rfl, Relation.ReflTransGen.single
    ⟨some false, by decide, .evict false (small_inode 64 S_IFCHR 0 fun _ => 0) rfl rfl trivial⟩,
    ⟨_, rfl, rfl⟩, ?_, ?_⟩
  · have hpath : block_to_path (beside_fs 64).vol (0 : Nat) = [0] := by decide
    have h0 : shape.IsPath [0] := isPath_cons.mpr ⟨by omega, by simp, by simp⟩
    rw [Fs.mapped_eq_some, hpath, beside_slot 64 true h0]
    simp
  · have hw : (gas_evict_inode ⟨small_vol true 5, small_inode 64 S_IFCHR 0 fun _ => 0, 0⟩).v.words =
        write_word (small_vol true 5).words 4 0 0 := rfl
    show (gas_evict_inode ⟨small_vol true 5, small_inode 64 S_IFCHR 0 fun _ => 0, 0⟩).v.words 4 0 ≠ 5
    rw [hw]
    simp [write_word]

end GasFs
