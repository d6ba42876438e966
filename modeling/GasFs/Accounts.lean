/-
# Exact block accounting

A mounted file system `Fs K` is a volume with any number of in-core inodes.  `Fs.slot` is the
pointer in a slot of an inode: the slots of regular files, directories and symlinks are those of the
block tree, a device or a socket has none, whatever its `blkaddr` holds.

`Fs.Sound` says that no block is held twice, that every block held is a data block and marked in
use, and that the bits outside the data zone are set; `Fs.Exact` that every data block marked in use
is held.  The operations of `Fs.Step` preserve both (`Fs.Step.sound`), so they hold along every run:
`Fs.run_accounted`.

Two conditions are needed.  When a buffer read fails, `free_branches` drops a subtree without giving
its blocks back, so a run with failing reads stays sound but not exact.  And no inode may have the
number `s_ninodes` (`Fs.Numbered`): `gas_free_inode` lets that number pass although it has no
record, and clears a word of the first data block.  Both are shown by
`Fs.accounting_needs_reads_and_numbers`.

The books are those of `Lib/Ledger.lean`, with an inode for an owner and the block map for the marks
(`Fs.sound_iff`, `Fs.exact_iff`).  An operation on a tree is a step of its owner (`Itree/Own.lean`),
hence a turn (`Fs.Sound.turn`), and the library does the rest.  The operations on inode numbers are
beside the trees: they write the inode map and the inode list, and what has to be shown of them is
that they write no block that a tree holds (`Fs.Aside`).
-/
import GasFs.Itree.Own
import Mathlib.Logic.Relation

namespace GasFs

open PtrTree

/-! ## 1. File systems and their slots

The keys of the inodes are arbitrary here.  Later modules take the inode numbers. -/

/-- A mounted volume and its in-core inodes.  A key without an inode is an inode that is not in
core. -/
structure Fs (K : Type) where
  vol : Vol
  inodes : K → Option Inode

variable {K : Type}

/-- The pointer in a slot of an inode; an inode that is not in core, or of a type without blocks,
has none. -/
def Fs.slot (d : Fs K) (k : K) (q : List Nat) : Nat :=
  match d.inodes k with
  | some i => if has_blocks i.i_mode then Ctx.val ⟨d.vol, i, 0⟩ q else 0
  | none => 0

/-- No block is held twice; every block held is a data block and marked; all bits outside the data
zone are set.  This is what makes an allocation safe. -/
structure Fs.Sound (d : Fs K) : Prop where
  geometry : TreeGeometry d.vol
  padded : d.vol.MapPadded
  one : ∀ k k' q q', shape.IsPath q → shape.IsPath q' → d.slot k q ≠ 0 →
    d.slot k q = d.slot k' q' → k = k' ∧ q = q'
  zone : ∀ k q, shape.IsPath q → d.slot k q ≠ 0 → d.vol.InZone (d.slot k q)
  used : ∀ k q, shape.IsPath q → d.slot k q ≠ 0 → d.vol.inUse (d.slot k q) = true

/-- Every data block marked in use is held.  This is the absence of leaks.  A run whose reads
succeed keeps it. -/
def Fs.Exact (d : Fs K) : Prop :=
  ∀ b, d.vol.InZone b → d.vol.inUse b = true → ∃ k q, shape.IsPath q ∧ d.slot k q = b

/-- The inodes in core have numbers with `P`, and the map gives out no others; the inode list lies in
front of the data zone. -/
structure Fs.NumbersIn (d : Fs K) (P : SbInfo → Nat → Prop) : Prop where
  limit : d.vol.inoLimit ≤ 4294967296
  list : ∀ n < d.vol.sbi.s_ninodes, gas_inode_block d.vol.sbi n < d.vol.sbi.s_data_block_start
  padded : ∀ n < d.vol.inoLimit, ¬P d.vol.sbi n → d.vol.inodeInUse n = true
  ino : ∀ k i, d.inodes k = some i → P d.vol.sbi i.i_ino

/-- No inode has the number `s_ninodes`, and the map does not give it out, unless `gas_free_inode`
refuses it.  Behind the last record, it is the one number that passes the guard without having one. -/
abbrev Fs.Numbered (d : Fs K) : Prop :=
  d.NumbersIn fun sbi n => n = sbi.s_ninodes → sbi.s_iam_blocks * 32768 ≤ n

/-- Every inode has a record in the inode list. -/
abbrev Fs.Recorded (d : Fs K) : Prop :=
  d.NumbersIn fun sbi n => 1 ≤ n ∧ n < sbi.s_ninodes ∧ n < sbi.s_iam_blocks * 32768

/-- The blocks an inode holds.  Its indirect blocks are among them. -/
def Fs.held (d : Fs K) (k : K) : Set Nat := {b | b ≠ 0 ∧ ∃ q, shape.IsPath q ∧ d.slot k q = b}

/-- The data blocks marked in use.  The metadata in front of the data zone is marked as well, and
not counted here. -/
def Fs.mark (d : Fs K) : Set Nat := {b | d.vol.InZone b ∧ d.vol.inUse b = true}

/-- **Freeing the number `n` of the inode `k` spares the other inodes**: `gas_free_inode` refuses it, or
the word it clears lies in no block that another inode holds, or that word is zero already. -/
def Fs.Spares (d : Fs K) (k : K) (n : Nat) : Prop :=
  ¬d.vol.Frees n ∨ (∀ k', k' ≠ k → gas_inode_block d.vol.sbi n ∉ d.held k') ∨
    d.vol.words (gas_inode_block d.vol.sbi n) (gas_inode_offset d.vol.sbi n / 4) = 0

theorem Fs.slot_of_blocks {d : Fs K} {k : K} {i : Inode} (hk : d.inodes k = some i)
    (hb : has_blocks i.i_mode = true) (q : List Nat) : d.slot k q = Ctx.val ⟨d.vol, i, 0⟩ q := by
  simp only [Fs.slot, hk, hb, if_true]

/-- A slot that is set belongs to an inode with blocks. -/
theorem Fs.slot_ne_zero {d : Fs K} {k : K} {q : List Nat} (h : d.slot k q ≠ 0) :
    ∃ i, d.inodes k = some i ∧ has_blocks i.i_mode = true := by
  unfold Fs.slot at h
  split at h
  · rename_i i hi
    by_cases hb : has_blocks i.i_mode = true
    · exact ⟨i, hi, hb⟩
    · rw [if_neg hb] at h
      exact absurd rfl h
  · exact absurd rfl h

/-- The slots of a sound file system form sound trees and sound books.  One tree being sound says
that its own pointers differ; that pointers of different trees differ is in the books. -/
theorem Fs.sound_iff {d : Fs K} : d.Sound ↔ TreeGeometry d.vol ∧ d.vol.MapPadded ∧
    (∀ k i, d.inodes k = some i → has_blocks i.i_mode = true → TreeOk ⟨d.vol, i, 0⟩) ∧
    Ledger.Sound d.held d.mark := by
  constructor
  · intro h
    refine ⟨h.geometry, h.padded, fun k i hk hb => ⟨h.geometry, h.padded, ?_, ?_, ?_⟩, ?_, ?_⟩
    · intro q q' hq hq' hne he
      have hs := d.slot_of_blocks hk hb
      exact (h.one k k q q' hq hq' (by rw [hs]; exact hne) (by rw [hs, hs]; exact he)).2
    · intro q hq hne
      rw [← d.slot_of_blocks hk hb] at hne ⊢
      exact h.zone k q hq hne
    · intro q hq hne
      rw [← d.slot_of_blocks hk hb] at hne ⊢
      exact h.used k q hq hne
    · rintro k b ⟨hne, q, hq, rfl⟩
      exact ⟨h.zone k q hq hne, h.used k q hq hne⟩
    · intro k k' hne
      rw [Set.disjoint_left]
      rintro b ⟨hb, q, hq, rfl⟩ ⟨-, q', hq', he⟩
      exact hne (h.one k k' q q' hq hq' hb he.symm).1
  · rintro ⟨hg, hp, ht, hs⟩
    refine ⟨hg, hp, ?_, ?_, ?_⟩
    · intro k k' q q' hq hq' hne he
      by_cases hk : k = k'
      · subst hk
        obtain ⟨i, hi, hb⟩ := d.slot_ne_zero hne
        rw [d.slot_of_blocks hi hb] at hne he
        rw [d.slot_of_blocks hi hb] at he
        exact ⟨rfl, (ht k i hi hb).one q q' hq hq' hne he⟩
      · exact absurd ⟨he ▸ hne, q', hq', rfl⟩
          (Set.disjoint_left.mp (hs.apart k k' hk) ⟨he ▸ hne, q, hq, he⟩)
    · exact fun k q hq hne => (hs.marked k ⟨hne, q, hq, rfl⟩).1
    · exact fun k q hq hne => (hs.marked k ⟨hne, q, hq, rfl⟩).2

theorem Fs.exact_iff {d : Fs K} (hg : Geometry d.vol) :
    d.Exact ↔ Ledger.Exact d.held d.mark := by
  have hpos := hg.data_pos
  constructor
  · rintro h b ⟨hz, hu⟩
    obtain ⟨k, q, hq, he⟩ := h b hz hu
    have := hz.1
    exact ⟨k, by omega, q, hq, he⟩
  · intro h b hz hu
    obtain ⟨k, -, q, hq, he⟩ := h b ⟨hz, hu⟩
    exact ⟨k, q, hq, he⟩

theorem Fs.Sound.treeOk {d : Fs K} (h : d.Sound) {k : K} {i : Inode} (hk : d.inodes k = some i)
    (hb : has_blocks i.i_mode = true) : TreeOk ⟨d.vol, i, 0⟩ := (sound_iff.mp h).2.2.1 k i hk hb

theorem Fs.mem_held {d : Fs K} {k : K} {i : Inode} (hk : d.inodes k = some i)
    (hb : has_blocks i.i_mode = true) (b : Nat) : b ∈ d.held k ↔ Holds ⟨d.vol, i, 0⟩ b := by
  simp only [Fs.held, Set.mem_ofPred_eq, d.slot_of_blocks hk hb]
  exact Iff.rfl

/-! ## 2. A step of one inode

Where the soundness of all trees comes from that of one. -/

variable [DecidableEq K]

/-- The file system after an operation on the inode `k`.  The volume of the context is the new one
for all inodes. -/
def Fs.set (d : Fs K) (k : K) (c : Ctx) : Fs K :=
  ⟨c.v, Function.update d.inodes k (some c.inode)⟩

section
variable {d : Fs K} {k : K} {i : Inode} {c' : Ctx}

/-- The trees of the other inodes are not touched. -/
theorem Fs.Sound.others (h : d.Sound) (hk : d.inodes k = some i) (hb : has_blocks i.i_mode = true)
    (hs : OwnStep ⟨d.vol, i, 0⟩ c') {k' : K} (hne : k' ≠ k) {q : List Nat} (hq : shape.IsPath q) :
    (d.set k c').slot k' q = d.slot k' q := by
  have hin : (d.set k c').inodes k' = d.inodes k' := by simp [Fs.set, hne]
  unfold Fs.slot
  rw [hin]
  cases hi : d.inodes k' with
  | none => rfl
  | some i' =>
    by_cases hb' : has_blocks i'.i_mode = true
    · simp only [hb', if_true]
      refine PtrTree.val_congr (S := shape) (fun r hr hr0 j _ => ?_) q hq
      have hslot := d.slot_of_blocks hi hb' r
      have hheld : PtrTree.val d.vol.words i'.blkaddr r ∈ d.held k' := ⟨hr0, r, hr, hslot⟩
      have hmark := (sound_iff.mp h).2.2.2.marked k' hheld
      refine congrFun (hs.keep _ hmark.2 fun hh => ?_).2 j
      rw [← d.mem_held hk hb] at hh
      exact Set.disjoint_left.mp ((sound_iff.mp h).2.2.2.apart k' k hne) hheld hh
    · simp only [hb', Bool.false_eq_true, if_false]

/-- **A step on the tree of one inode is a turn of its owner.** The step leaves blocks that are in
use and not its own alone, and that is what the other owners hold. -/
theorem Fs.Sound.turn (h : d.Sound) (hk : d.inodes k = some i) (hb : has_blocks i.i_mode = true)
    (hs : OwnStep ⟨d.vol, i, 0⟩ c') :
    Ledger.Turn k d.held (d.set k c').held d.mark (d.set k c').mark := by
  have hk' : (d.set k c').inodes k = some c'.inode := by simp [Fs.set]
  have hb' : has_blocks c'.inode.i_mode = true := by rw [hs.mode]; exact hb
  have hheld' : ∀ b, b ∈ (d.set k c').held k ↔ Holds c' b := (d.set k c').mem_held hk' hb'
  refine ⟨fun k1 hne => ?_, fun b hbm => ?_, fun b hbm => ?_, fun b hbm hn => ?_⟩
  · ext b
    simp only [Fs.held, Set.mem_ofPred_eq]
    refine and_congr_right fun _ => exists_congr fun q => and_congr_right fun hq => ?_
    rw [h.others hk hb hs hne hq]
  · rcases hs.fresh b ((hheld' b).mp hbm) with h1 | h1
    · exact Or.inl ((d.mem_held hk hb b).mpr h1)
    · refine Or.inr fun hm => ?_
      have h2 : d.vol.inUse b = false := h1
      rw [hm.2] at h2
      exact absurd h2 (by simp)
  · have hh := (hheld' b).mp hbm
    exact ⟨hh.zone hs.ok, hh.used hs.ok⟩
  · obtain ⟨h1, -⟩ := hs.keep b hbm.2 fun hh => hn ((d.mem_held hk hb b).mpr hh)
    exact ⟨(hs.vol.inZone b).mpr hbm.1, h1⟩

theorem Fs.Sound.own (h : d.Sound) (hk : d.inodes k = some i) (hb : has_blocks i.i_mode = true)
    (hs : OwnStep ⟨d.vol, i, 0⟩ c') : (d.set k c').Sound := by
  refine sound_iff.mpr ⟨hs.ok.geometry, hs.ok.padded, fun k' i' hi' hb' => ?_,
    (h.turn hk hb hs).sound (sound_iff.mp h).2.2.2⟩
  by_cases hne : k' = k
  · subst hne
    have hc : some c'.inode = some i' := by rw [← hi']; simp [Fs.set]
    rw [← Option.some.inj hc]
    exact ⟨hs.ok.geometry, hs.ok.padded, hs.ok.one, hs.ok.zone, hs.ok.used⟩
  · have hi : d.inodes k' = some i' := by rw [← hi']; simp [Fs.set, hne]
    have ht := h.treeOk hi hb'
    have hval : ∀ q, shape.IsPath q →
        Ctx.val ⟨(d.set k c').vol, i', 0⟩ q = Ctx.val ⟨d.vol, i', 0⟩ q := fun q hq => by
      rw [← (d.set k c').slot_of_blocks hi' hb', ← d.slot_of_blocks hi hb']
      exact h.others hk hb hs hne hq
    have hmark : ∀ q, shape.IsPath q → Ctx.val ⟨d.vol, i', 0⟩ q ≠ 0 →
        Ctx.val ⟨d.vol, i', 0⟩ q ∈ (d.set k c').mark := fun q hq hq0 => by
      refine ((h.turn hk hb hs).sound (sound_iff.mp h).2.2.2).marked k' ?_
      refine ⟨hq0, q, hq, ?_⟩
      rw [(d.set k c').slot_of_blocks hi' hb', hval q hq]
    refine ⟨hs.ok.geometry, hs.ok.padded, ht.one.of_sub fun q hq => Or.inl (hval q hq), ?_, ?_⟩
    · intro q hq hq0
      rw [hval q hq] at hq0 ⊢
      exact (hmark q hq hq0).1
    · intro q hq hq0
      rw [hval q hq] at hq0 ⊢
      exact (hmark q hq hq0).2

theorem Fs.Exact.own (hx : d.Exact) (h : d.Sound) (hk : d.inodes k = some i)
    (hb : has_blocks i.i_mode = true) (hs : OwnStep ⟨d.vol, i, 0⟩ c')
    (hio : ∀ n, d.vol.env.bread n = true) : (d.set k c').Exact := by
  have hk' : (d.set k c').inodes k = some c'.inode := by simp [Fs.set]
  have hb' : has_blocks c'.inode.i_mode = true := by rw [hs.mode]; exact hb
  rw [exact_iff hs.ok.geometry.toGeometry]
  refine (h.turn hk hb hs).exact (fun b hbm => ?_) ((exact_iff h.geometry.toGeometry).mp hx)
  rcases hs.exact hio b hbm.2 with h1 | ⟨h1, h2⟩
  · exact Or.inl (((d.set k c').mem_held hk' hb' b).mpr h1)
  · exact Or.inr ⟨⟨(hs.vol.inZone b).mp hbm.1, h1⟩, fun hh => h2 ((d.mem_held hk hb b).mp hh)⟩

end

/-! ## 3. Steps beside the trees

Inode numbers, records and requests. -/

omit [DecidableEq K] in
/-- Equal slots and equal marks: equal books. -/
theorem Fs.Sound.congr {d d' : Fs K} (h : d.Sound) (hg : TreeGeometry d'.vol)
    (hp : d'.vol.MapPadded) (hz : ∀ b, d'.vol.InZone b ↔ d.vol.InZone b)
    (hu : ∀ b, d'.vol.inUse b = d.vol.inUse b)
    (hslot : ∀ k q, shape.IsPath q → d'.slot k q = d.slot k q) :
    d'.Sound ∧ (d.Exact → d'.Exact) := by
  refine ⟨⟨hg, hp, fun k k' q q' hq hq' hne he => ?_, fun k q hq hne => ?_, fun k q hq hne => ?_⟩,
    fun hx b hb hub => ?_⟩
  · rw [hslot k q hq] at hne he
    rw [hslot k' q' hq'] at he
    exact h.one k k' q q' hq hq' hne he
  · rw [hslot k q hq] at hne ⊢
    exact (hz _).mpr (h.zone k q hq hne)
  · rw [hslot k q hq] at hne ⊢
    rw [hu]
    exact h.used k q hq hne
  · obtain ⟨k, q, hq, he⟩ := hx b ((hz b).mp hb) (hu b ▸ hub)
    exact ⟨k, q, hq, (hslot k q hq).trans he⟩

/-- What the operations on inode numbers change: the inode map, and blocks that no slot holds.  The
block map is not among it. -/
def Fs.Aside (d : Fs K) (v : Vol) : Prop :=
  ∃ iam hint words tick,
    v = { d.vol with iam := iam, s_iam_last := hint, words := words, tick := tick } ∧
      ∀ k, ∀ b ∈ d.held k, words b = d.vol.words b

omit [DecidableEq K] in
theorem Fs.Aside.same {d : Fs K} {v : Vol} (hv : d.Aside v) :
    v.sbi = d.vol.sbi ∧ v.env = d.vol.env := by
  obtain ⟨_, _, _, _, rfl, -⟩ := hv
  exact ⟨rfl, rfl⟩

omit [DecidableEq K] in
/-- Blocks outside the data zone are held by nobody. -/
theorem Fs.Sound.aside_of_zone {d : Fs K} (h : d.Sound) {iam : Nat → Nat → Bool}
    {hint : Fin d.vol.sbi.s_iam_blocks} {words : Nat → Nat → Nat} {tick : Nat}
    (hw : ∀ b, d.vol.InZone b → words b = d.vol.words b) :
    d.Aside { d.vol with iam := iam, s_iam_last := hint, words := words, tick := tick } :=
  ⟨_, _, _, _, rfl, fun _ b hb => hw b ((sound_iff.mp h).2.2.2.marked _ hb).1⟩

omit [DecidableEq K] in
/-- They move no slot. -/
theorem Fs.Aside.slot {d : Fs K} {v : Vol} (hv : d.Aside v) (k : K) {q : List Nat}
    (hq : shape.IsPath q) : Fs.slot ⟨v, d.inodes⟩ k q = d.slot k q := by
  obtain ⟨iam, hint, words, tick, rfl, hw⟩ := hv
  unfold Fs.slot
  cases hk : d.inodes k with
  | none => rfl
  | some i =>
    by_cases hb : has_blocks i.i_mode = true
    · simp only [hb, if_true]
      refine PtrTree.val_congr (S := shape) (fun r hr hne j _ => ?_) q hq
      exact congrFun (hw k _ ⟨hne, r, hr, d.slot_of_blocks hk hb r⟩) j
    · simp only [hb, Bool.false_eq_true, if_false]

omit [DecidableEq K] in
theorem Fs.Sound.aside {d : Fs K} (h : d.Sound) {v : Vol} (hv : d.Aside v) :
    Fs.Sound ⟨v, d.inodes⟩ ∧ (d.Exact → Fs.Exact ⟨v, d.inodes⟩) := by
  have hslot := fun k q hq => hv.slot k (q := q) hq
  obtain ⟨iam, hint, words, tick, rfl, -⟩ := hv
  exact h.congr ⟨{ h.geometry.toGeometry with }, h.geometry.nblocks_le⟩ h.padded (fun _ => Iff.rfl)
    (fun _ => rfl) hslot

/-- An inode that holds nothing comes or goes. -/
theorem Fs.Sound.swap {d : Fs K} (h : d.Sound) {k : K} (o : Option Inode)
    (h0 : ∀ q, shape.IsPath q → d.slot k q = 0)
    (h1 : ∀ q, shape.IsPath q → Fs.slot ⟨d.vol, Function.update d.inodes k o⟩ k q = 0) :
    Fs.Sound ⟨d.vol, Function.update d.inodes k o⟩ ∧
      (d.Exact → Fs.Exact ⟨d.vol, Function.update d.inodes k o⟩) := by
  refine h.congr h.geometry h.padded (fun _ => Iff.rfl) (fun _ => rfl) fun k' q hq => ?_
  by_cases hk : k' = k
  · rw [hk, h0 q hq, h1 q hq]
  · simp [Fs.slot, hk]

/-- An inode without pointers holds nothing. -/
theorem val_no_pointers (w : Nat → Nat → Nat) (q : List Nat) : val w (fun _ => 0) q = 0 := by
  cases q with
  | nil => rfl
  | cons i r => exact walk_zero w r

omit [DecidableEq K] in
/-- Giving a number back leaves every block that is held as it was, if that spares all inodes. -/
theorem Fs.gas_free_inode_aside {d : Fs K} (hg : Geometry d.vol) {inode : Inode}
    (hs : ¬d.vol.Frees inode.i_ino ∨
      (∀ k, gas_inode_block d.vol.sbi inode.i_ino ∉ d.held k) ∨
      d.vol.words (gas_inode_block d.vol.sbi inode.i_ino)
        (gas_inode_offset d.vol.sbi inode.i_ino / 4) = 0) :
    d.Aside (gas_free_inode d.vol inode) := by
  rcases gas_free_inode_cases hg inode with ⟨-, he⟩ | ⟨hf, he⟩
  · exact ⟨_, _, _, _, he, fun _ _ _ => rfl⟩
  · refine ⟨_, _, _, _, he, fun k b hb => ?_⟩
    rw [gas_clear_inode_words]
    dsimp only
    split_ifs
    · funext w
      unfold write_word
      split_ifs with hbw
      · obtain ⟨rfl, rfl⟩ := hbw
        exact ((hs.resolve_left (not_not.mpr hf)).resolve_left fun h => h k hb).symm
      · rfl
    · rfl

/-! ## 4. Operations and runs

The operations of a mounted file system that touch blocks or inode numbers. -/

/-- New contents of a block. -/
def Vol.overwrite (v : Vol) (b : Nat) (f : Nat → Nat) : Vol :=
  { v with words := Function.update v.words b f }

/-- The operations on a mounted file system. -/
inductive Fs.Step (d : Fs K) : Fs K → Prop
  /-- a block of a file is looked up or allocated -/
  | get_block (k : K) (i : Inode) (block : Nat) (create : Bool) (hk : d.inodes k = some i)
      (hb : has_blocks i.i_mode = true) :
      Fs.Step d (d.set k (gas_get_block ⟨d.vol, i, 0⟩ block create).c)
  /-- the size changes and the tree is cut -/
  | truncate (k : K) (i : Inode) (size : Nat) (hk : d.inodes k = some i)
      (hb : has_blocks i.i_mode = true) :
      Fs.Step d (d.set k (gas_truncate_inode ⟨d.vol, { i with i_size := size }, 0⟩))
  /-- an inode without links goes away -/
  | evict (k : K) (i : Inode) (hk : d.inodes k = some i) (hl : i.i_nlink = 0) :
      Fs.Step d ⟨(gas_evict_inode ⟨d.vol, i, 0⟩).v, Function.update d.inodes k none⟩
  /-- a new inode, with the operation table and device number `gas_set_inode` gives it -/
  | new_inode (k : K) (dir : Inode) (mode : BitVec 16) (rdev : Nat) (inode : Inode) (v : Vol)
      (hk : d.inodes k = none) (h : gas_new_inode d.vol dir mode = (none, some inode, v)) :
      Fs.Step d ⟨v, Function.update d.inodes k (some (gas_set_inode inode rdev))⟩
  /-- no inode to be had -/
  | no_inode (dir : Inode) (mode : BitVec 16) (e : Errno) (v : Vol)
      (h : gas_new_inode d.vol dir mode = (some e, none, v)) : Fs.Step d ⟨v, d.inodes⟩
  /-- a data block of a file is overwritten -/
  | write (k : K) (i : Inode) (block : Nat) (f : Nat → Nat) (hk : d.inodes k = some i)
      (hb : has_blocks i.i_mode = true) (hp : block_to_path d.vol block ≠ [])
      (hne : d.slot k (block_to_path d.vol block) ≠ 0) :
      Fs.Step d ⟨d.vol.overwrite (d.slot k (block_to_path d.vol block)) f, d.inodes⟩

theorem gas_set_inode_fields (inode : Inode) (rdev : Nat) :
    (gas_set_inode inode rdev).i_ino = inode.i_ino ∧
      (gas_set_inode inode rdev).blkaddr = inode.blkaddr := by
  unfold gas_set_inode
  split_ifs <;> exact ⟨rfl, rfl⟩

/-- Overwriting a data block cuts nothing off: no pointer is stored in it. -/
theorem overwrite_cut {c : Ctx} (hc : TreeOk c) {q : List Nat} (hq : IsLeaf q)
    (hne : c.val q ≠ 0) (f : Nat → Nat) :
    Cut (fun _ => False) c { c with v := c.v.overwrite (c.val q) f } := by
  have h0 := Cut.none c
  refine ⟨⟨_, _, _, _, rfl⟩, InodeStep.refl _, fun r hr => ?_, fun b hb => ?_, h0.marks, h0.mono,
    h0.exact⟩
  · rw [← h0.val r hr]
    refine val_eq_of_step (S := shape) (w := Function.update c.v.words (c.val q) f)
      (f := c.val) (fun _ _ => rfl) (fun s j hsj hs => ?_) r hr
    have hstep : c.val (s ++ [j]) = if c.val s = 0 then 0 else c.v.words (c.val s) j :=
      val_concat hs j
    show c.val (s ++ [j]) = if c.val s = 0 then 0
      else Function.update c.v.words (c.val q) f (c.val s) j
    rw [hstep]
    by_cases hz : c.val s = 0
    · rw [if_pos hz, if_pos hz]
    · rw [if_neg hz, if_neg hz, Function.update_of_ne fun he => ?_]
      -- a slot that leads on is no data slot
      have hsq := hc.one s q (hsj.left hs) hq.1 hz he
      exact hq.last (hsq ▸ hsj)
  · exact Function.update_of_ne (fun he => hb q hq.1 hne he.symm) f c.v.words

/-- An inode whose cache and size are dropped. -/
def Inode.emptied (i : Inode) : Inode := { i with pages := fun _ _ => 0, i_size := 0 }

theorem gas_evict_inode_nolinks (v : Vol) {i : Inode} (hl : i.i_nlink = 0) :
    gas_evict_inode ⟨v, i, 0⟩ =
      (let c := gas_truncate ⟨v, i.emptied, 0⟩
       if c.inode.i_nlink = 0 then { c with v := gas_free_inode c.v c.inode } else c) := by
  have h : (if i.i_nlink = 0 then gas_truncate ⟨v, i.emptied, 0⟩
      else (⟨v, { i with pages := fun _ _ => 0 }, 0⟩ : Ctx)) = gas_truncate ⟨v, i.emptied, 0⟩ :=
    if_pos hl
  exact congrArg (fun c : Ctx =>
    if c.inode.i_nlink = 0 then { c with v := gas_free_inode c.v c.inode } else c) h

/-- An evicted inode without links: its tree is cut, then its number is given back. -/
theorem gas_evict_inode_eq {v : Vol} {i : Inode} (hl : i.i_nlink = 0)
    (hc : has_blocks i.i_mode = true → TreeOk ⟨v, i, 0⟩) :
    ∃ c' : Ctx, (gas_evict_inode ⟨v, i, 0⟩).v = gas_free_inode c'.v c'.inode ∧
      c'.inode.i_ino = i.i_ino ∧
      (has_blocks i.i_mode = true → OwnStep ⟨v, i, 0⟩ c' ∧ ∀ b, ¬Holds c' b) ∧
      (has_blocks i.i_mode = false → c'.v = v) := by
  rw [gas_evict_inode_nolinks v hl]
  by_cases hb : has_blocks i.i_mode = true
  · have hok : TreeOk (⟨v, i.emptied, 0⟩ : Ctx) := (hc hb).withInode rfl
    obtain ⟨Z, hZ, -⟩ := gas_truncate_inode_is_cut hok
    have ht : gas_truncate ⟨v, i.emptied, 0⟩ = gas_truncate_inode ⟨v, i.emptied, 0⟩ := if_pos hb
    rw [ht]
    refine ⟨gas_truncate_inode ⟨v, i.emptied, 0⟩, ?_, hZ.inode.ino, fun _ => ⟨?_, ?_⟩,
      fun h => absurd (hb.symm.trans h) (by simp)⟩
    · simp only [hZ.inode.nlink.trans hl, if_true]
    · exact (hZ.ownStep hok).of_withInode (c := ⟨v, i, 0⟩) rfl rfl rfl
    · exact truncate_zero_holds hok rfl
  · have ht : gas_truncate ⟨v, i.emptied, 0⟩ = ⟨v, i.emptied, 0⟩ := if_neg hb
    rw [ht]
    exact ⟨⟨v, i.emptied, 0⟩, congrArg Ctx.v (if_pos hl), rfl, fun h => absurd h hb, fun _ => rfl⟩

omit [DecidableEq K] in
/-- The numbers depend on the superblock, the inode map and the in-core inodes. -/
theorem Fs.NumbersIn.congr {d d' : Fs K} {P : SbInfo → Nat → Prop} (h : d.NumbersIn P)
    (hs : d'.vol.sbi = d.vol.sbi)
    (hm : ∀ n < d.vol.inoLimit, ¬P d.vol.sbi n → d.vol.inodeInUse n = true →
      d'.vol.inodeInUse n = true)
    (hi : ∀ k i, d'.inodes k = some i → P d.vol.sbi i.i_ino) : d'.NumbersIn P := by
  have hlim : d'.vol.inoLimit = d.vol.inoLimit := by simp only [Vol.inoLimit, hs]
  refine ⟨by rw [hlim]; exact h.limit, by rw [hs]; exact h.list, fun n hn hno => ?_, fun k i hk => ?_⟩
  · rw [hlim] at hn
    rw [hs] at hno
    exact hm n hn hno (h.padded n hn hno)
  · rw [hs]
    exact hi k i hk

/-- A step on one tree leaves the numbers alone. -/
theorem Fs.NumbersIn.own {d : Fs K} {P : SbInfo → Nat → Prop} (h : d.NumbersIn P) {k : K} {i : Inode}
    {c' : Ctx} (hk : d.inodes k = some i) (hs : OwnStep ⟨d.vol, i, 0⟩ c') :
    (d.set k c').NumbersIn P := by
  have hiam : c'.v.iam = d.vol.iam := by
    obtain ⟨_, _, _, _, he⟩ := hs.vol
    rw [he]
  refine h.congr hs.vol.sbi (fun n _ _ hu => ?_) fun k' i' hk' => ?_
  · simpa only [Fs.set, Vol.inodeInUse, hiam] using hu
  · by_cases hne : k' = k
    · have he : some c'.inode = some i' := by rw [← hk', hne]; simp [Fs.set]
      rw [← Option.some.inj he, hs.ino]
      exact h.ino k i hk
    · exact h.ino k' i' (by rw [← hk']; simp [Fs.set, hne])

omit [DecidableEq K] in
theorem Fs.Recorded.numbered {d : Fs K} (h : d.Recorded) : d.Numbered where
  limit := h.limit
  list := h.list
  padded n hn hno := h.padded n hn fun hlt => hno fun he => absurd he (Nat.ne_of_lt hlt.2.1)
  ino k i hk he := absurd he (Nat.ne_of_lt (h.ino k i hk).2.1)

omit [DecidableEq K] in
/-- **Numbered file systems free no number at another's cost**: a number that is not refused has its
record in front of the data zone. -/
theorem Fs.Numbered.spares {d : Fs K} (hn : d.Numbered) (h : d.Sound) {k : K} {i : Inode}
    (hk : d.inodes k = some i) : d.Spares k i.i_ino := by
  by_cases hf : d.vol.Frees i.i_ino
  · obtain ⟨-, hle, hlim⟩ := hf
    have hne : i.i_ino ≠ d.vol.sbi.s_ninodes := fun e =>
      absurd (hn.ino k i hk e) (Nat.not_le.mpr hlim)
    refine Or.inr (Or.inl fun k' _ hb => ?_)
    have hzone := ((sound_iff.mp h).2.2.2.marked k' hb).1
    exact absurd hzone.1 (Nat.not_le.mpr (hn.list _ (Nat.lt_of_le_of_ne hle hne)))
  · exact Or.inl hf

/-! ### Eviction

The one operation that is both: the tree goes, then the number. -/

/-- The volume of `d` after the tree of `k` is given back, and without `k` in core.  The inode map
still has the number. -/
structure Fs.Uprooted (d : Fs K) (k : K) (v : Vol) : Prop where
  sound : Fs.Sound ⟨v, Function.update d.inodes k none⟩
  vol : BlockStep d.vol v
  exact : (∀ n, d.vol.env.bread n = true) → d.Exact →
    Fs.Exact ⟨v, Function.update d.inodes k none⟩
  empty : ∀ b, b ∉ Fs.held ⟨v, Function.update d.inodes k none⟩ k
  held : ∀ k', k' ≠ k → Fs.held ⟨v, Function.update d.inodes k none⟩ k' = d.held k'
  words : ∀ k', k' ≠ k → ∀ b ∈ d.held k', v.words b = d.vol.words b

omit [DecidableEq K] in
/-- The slots of an inode are determined by its record and the volume. -/
theorem Fs.held_congr {d d' : Fs K} {k : K}
    (hslot : ∀ q, shape.IsPath q → d'.slot k q = d.slot k q) : d'.held k = d.held k := by
  ext b
  simp only [Fs.held, Set.mem_ofPred_eq]
  exact and_congr_right fun _ => exists_congr fun q => and_congr_right fun hq => by rw [hslot q hq]

/-- **An inode without links goes away in two steps**: the tree first, then the number. -/
theorem Fs.Sound.uproot {d : Fs K} (h : d.Sound) {k : K} {i : Inode} (hk : d.inodes k = some i)
    (hl : i.i_nlink = 0) :
    ∃ c' : Ctx, (gas_evict_inode ⟨d.vol, i, 0⟩).v = gas_free_inode c'.v c'.inode ∧
      c'.inode.i_ino = i.i_ino ∧ d.Uprooted k c'.v := by
  obtain ⟨c', hv, hino, hblk, hnone⟩ := gas_evict_inode_eq hl fun hb => h.treeOk hk hb
  refine ⟨c', hv, hino, ?_⟩
  have hempty : ∀ v b, b ∉ Fs.held ⟨v, Function.update d.inodes k none⟩ k := by
    rintro v b ⟨hne, q, -, rfl⟩
    exact hne (by simp [Fs.slot])
  cases hb : has_blocks i.i_mode with
  | true =>
    obtain ⟨hs, hnil⟩ := hblk hb
    have h1 := h.own hk hb hs
    have hk' : (d.set k c').inodes k = some c'.inode := Function.update_self _ _ _
    have hswap := h1.swap (k := k) none (fun q hq => ?_) (fun q _ => by simp [Fs.slot])
    · have hidem : (⟨(d.set k c').vol, Function.update (d.set k c').inodes k none⟩ : Fs K) =
          ⟨c'.v, Function.update d.inodes k none⟩ := by simp [Fs.set]
      rw [hidem] at hswap
      refine ⟨hswap.1, hs.vol, fun hio hx => hswap.2 (hx.own h hk hb hs hio), hempty _,
        fun k' hne => Fs.held_congr fun q hq => ?_, fun k' hne b hbm => ?_⟩
      · rw [← h.others hk hb hs hne hq]
        simp [Fs.slot, Fs.set, hne]
      · refine (hs.keep b ((sound_iff.mp h).2.2.2.marked k' hbm).2 fun hh => ?_).2
        rw [← d.mem_held hk hb] at hh
        exact Set.disjoint_left.mp ((sound_iff.mp h).2.2.2.apart k' k hne) hbm hh
    · by_contra hne
      rw [(d.set k c').slot_of_blocks hk' (by rw [hs.mode]; exact hb)] at hne
      exact hnil _ ⟨hne, q, hq, rfl⟩
  | false =>
    have hswap := h.swap (k := k) none (fun q _ => by simp [Fs.slot, hk, hb])
      (fun q _ => by simp [Fs.slot])
    rw [hnone hb]
    refine ⟨hswap.1, BlockStep.refl _, fun _ hx => hswap.2 hx, hempty _,
      fun k' hne => Fs.held_congr fun q _ => ?_, fun _ _ _ _ => rfl⟩
    simp [Fs.slot, hne]

section
variable {d : Fs K} {k : K} {i : Inode}

/-- The number that is then given back spares the inodes that are left. -/
theorem Fs.Uprooted.aside {c' : Ctx} (hu : d.Uprooted k c'.v) (hs : d.Spares k i.i_ino)
    (hino : c'.inode.i_ino = i.i_ino) :
    Fs.Aside ⟨c'.v, Function.update d.inodes k none⟩ (gas_free_inode c'.v c'.inode) := by
  refine Fs.gas_free_inode_aside hu.sound.geometry.toGeometry ?_
  have hsbi := hu.vol.sbi
  simp only [hino, Vol.Frees, Vol.inoLimit, hsbi]
  rcases hs with hf | hno | hz
  · exact Or.inl hf
  · refine Or.inr (Or.inl fun k' hb => ?_)
    by_cases hne : k' = k
    · exact hu.empty _ (hne ▸ hb)
    · exact hno k' hne (hu.held k' hne ▸ hb)
  · by_cases hex : ∃ k', k' ≠ k ∧ gas_inode_block d.vol.sbi i.i_ino ∈ d.held k'
    · obtain ⟨k', hne, hb⟩ := hex
      refine Or.inr (Or.inr ?_)
      rw [hu.words k' hne _ hb]
      exact hz
    · refine Or.inr (Or.inl fun k' hb => ?_)
      by_cases hne : k' = k
      · exact hu.empty _ (hne ▸ hb)
      · exact hex ⟨k', hne, hu.held k' hne ▸ hb⟩

/-- **Eviction**: the blocks of the inode come back, and no other inode notices.  Both parts are in
one operation, and no other operation can come in between. -/
theorem Fs.Sound.evict (h : d.Sound) (hk : d.inodes k = some i) (hl : i.i_nlink = 0)
    (hs : d.Spares k i.i_ino) :
    Fs.Sound ⟨(gas_evict_inode ⟨d.vol, i, 0⟩).v, Function.update d.inodes k none⟩ ∧
      (gas_evict_inode ⟨d.vol, i, 0⟩).v.env = d.vol.env ∧
      ((∀ n, d.vol.env.bread n = true) → d.Exact →
        Fs.Exact ⟨(gas_evict_inode ⟨d.vol, i, 0⟩).v, Function.update d.inodes k none⟩) := by
  obtain ⟨c', hv, hino, hu⟩ := h.uproot hk hl
  have ha := hu.aside hs hino
  obtain ⟨hf1, hf2⟩ := hu.sound.aside ha
  rw [hv]
  exact ⟨hf1, ha.same.2.trans hu.vol.env, fun hio hx => hf2 (hu.exact hio hx)⟩

/-- The number comes back too. -/
theorem Fs.NumbersIn.evict {P : SbInfo → Nat → Prop} (hn : d.NumbersIn P) (h : d.Sound)
    (hk : d.inodes k = some i) (hl : i.i_nlink = 0) :
    Fs.NumbersIn ⟨(gas_evict_inode ⟨d.vol, i, 0⟩).v, Function.update d.inodes k none⟩ P := by
  obtain ⟨c', hv, hino, hu⟩ := h.uproot hk hl
  obtain ⟨hsbi, hiam⟩ : c'.v.sbi = d.vol.sbi ∧ c'.v.iam = d.vol.iam := by
    obtain ⟨_, _, _, _, he⟩ := hu.vol
    rw [he]
    exact ⟨rfl, rfl⟩
  rw [hv]
  refine hn.congr ?_ (fun n _ hno hset => ?_) fun k' i' hk' => ?_
  · rcases gas_free_inode_cases hu.sound.geometry.toGeometry c'.inode with ⟨-, he⟩ | ⟨-, he⟩
    · exact (congrArg Vol.sbi he).trans hsbi
    · exact (congrArg Vol.sbi he).trans hsbi
  · have hne : n ≠ i.i_ino := fun e => hno (e ▸ hn.ino k i hk)
    rw [Vol.inodeInUse, ← hiam] at hset
    rcases gas_free_inode_cases hu.sound.geometry.toGeometry c'.inode with ⟨-, he⟩ | ⟨-, he⟩
    · rw [he]
      exact hset
    · rw [he]
      simp only [Vol.inodeInUse, write_bit_block, hino, if_neg hne]
      exact hset
  · by_cases hne : k' = k
    · rw [hne] at hk'
      simp at hk'
    · exact hn.ino k' i' (by rw [← hk']; simp [hne])

/-! ### New inodes

An inode comes into core without pointers, from the map or from a record. -/

omit [DecidableEq K] in
/-- The inode map is all that changes of the volume. -/
theorem Fs.new_inode_aside {dir : Inode} {mode : BitVec 16} {o : Option Errno}
    {inode : Option Inode} {v : Vol} (heq : gas_new_inode d.vol dir mode = (o, inode, v)) :
    d.Aside v := by
  obtain ⟨⟨iam, hint, he⟩, -⟩ := gas_new_inode_result d.vol dir mode
  rw [heq] at he
  exact ⟨_, _, _, _, he, fun _ _ _ => rfl⟩

/-- **A new inode** owns no block. -/
theorem Fs.Sound.new_inode (h : d.Sound) {dir : Inode} {mode : BitVec 16} {inode : Inode} {v : Vol}
    (hk : d.inodes k = none) (heq : gas_new_inode d.vol dir mode = (none, some inode, v)) (rdev : Nat) :
    Fs.Sound ⟨v, Function.update d.inodes k (some (gas_set_inode inode rdev))⟩ ∧
      v.env = d.vol.env ∧
      (d.Exact → Fs.Exact ⟨v, Function.update d.inodes k (some (gas_set_inode inode rdev))⟩) := by
  obtain ⟨h1, h2⟩ := h.aside (Fs.new_inode_aside heq)
  have hzero := (gas_new_inode_result d.vol dir mode).2 inode (by rw [heq])
  obtain ⟨h3, h4⟩ := h1.swap (k := k) (some (gas_set_inode inode rdev))
    (fun q _ => by simp [Fs.slot, hk]) fun q _ => by
      simp only [Fs.slot, Function.update_self, Ctx.val, (gas_set_inode_fields inode rdev).2,
        hzero, val_no_pointers, ite_self]
  exact ⟨h3, (Fs.new_inode_aside heq).same.2, fun hx => h4 (h2 hx)⟩

/-- It takes a number that the map gives out. -/
theorem Fs.NumbersIn.new_inode {P : SbInfo → Nat → Prop} (hn : d.NumbersIn P) (hg : Geometry d.vol)
    {dir : Inode} {mode : BitVec 16} {inode : Inode} {v : Vol}
    (heq : gas_new_inode d.vol dir mode = (none, some inode, v)) (rdev : Nat) :
    Fs.NumbersIn ⟨v, Function.update d.inodes k (some (gas_set_inode inode rdev))⟩ P := by
  rcases gas_new_inode_cases hg hn.limit dir mode with ⟨ino, hint, he, hlt, hfree, -⟩ | ⟨e, he, -⟩
  · rw [he] at heq
    obtain ⟨hi, hv⟩ : some _ = some inode ∧ _ = v := (Prod.mk.inj (Prod.mk.inj heq).2)
    have hnum : inode.i_ino = ino := by rw [← Option.some.inj hi]
    refine hn.congr (by rw [← hv]) (fun n _ _ hu => ?_) fun k' i' hk' => ?_
    · rw [← hv]
      simp only [Vol.inodeInUse, write_bit_block]
      split
      · rfl
      · exact hu
    · by_cases hne : k' = k
      · rw [hne] at hk'
        obtain rfl : gas_set_inode inode rdev = i' := by simpa using hk'
        rw [(gas_set_inode_fields inode rdev).1, hnum]
        by_contra hno
        rw [hn.padded ino hlt hno] at hfree
        exact Bool.false_ne_true hfree.symm
      · exact hn.ino k' i' (by rw [← hk']; simp [hne])
  · rw [he] at heq
    simp at heq

omit [DecidableEq K] in
/-- A call that has no inode to give changes nothing a slot holds. -/
theorem Fs.Sound.no_inode (h : d.Sound) {dir : Inode} {mode : BitVec 16} {e : Errno} {v : Vol}
    (heq : gas_new_inode d.vol dir mode = (some e, none, v)) :
    Fs.Sound ⟨v, d.inodes⟩ ∧ v.env = d.vol.env ∧ (d.Exact → Fs.Exact ⟨v, d.inodes⟩) := by
  obtain ⟨h1, h2⟩ := h.aside (Fs.new_inode_aside heq)
  exact ⟨h1, (Fs.new_inode_aside heq).same.2, h2⟩

end

/-! ### Any operation

One case for each constructor. -/

/-- A data block is overwritten. -/
theorem Fs.Sound.write {d : Fs K} (h : d.Sound) {k : K} {i : Inode} {block : Nat} (f : Nat → Nat)
    (hk : d.inodes k = some i) (hb : has_blocks i.i_mode = true)
    (hp : block_to_path d.vol block ≠ []) (hne : d.slot k (block_to_path d.vol block) ≠ 0) :
    ∃ c', OwnStep ⟨d.vol, i, 0⟩ c' ∧
      d.set k c' = ⟨d.vol.overwrite (d.slot k (block_to_path d.vol block)) f, d.inodes⟩ := by
  rw [d.slot_of_blocks hk hb] at hne ⊢
  have hc := h.treeOk hk hb
  exact ⟨_, (overwrite_cut hc (block_to_path_isLeaf h.geometry hp) hne f).ownStep hc,
    by simp [Fs.set, ← hk]⟩

/-- **Every operation keeps the books sound**, and exact if its reads succeed. -/
theorem Fs.Step.sound {d d' : Fs K} (hstep : Fs.Step d d') (h : d.Sound) (hn : d.Numbered) :
    d'.Sound ∧ d'.Numbered ∧ d'.vol.env = d.vol.env ∧
      ((∀ n, d.vol.env.bread n = true) → d.Exact → d'.Exact) := by
  cases hstep with
  | get_block k i block create hk hb =>
    have hs := gas_get_block_ownStep (h.treeOk hk hb) block create
    exact ⟨h.own hk hb hs, hn.own hk hs, hs.vol.env,
      fun hio hx => hx.own h hk hb hs hio⟩
  | truncate k i size hk hb =>
    have hs := (gas_truncate_inode_ownStep ((h.treeOk hk hb).withInode
      (i := { i with i_size := size }) rfl)).of_withInode (c := ⟨d.vol, i, 0⟩) rfl rfl rfl
    exact ⟨h.own hk hb hs, hn.own hk hs, hs.vol.env,
      fun hio hx => hx.own h hk hb hs hio⟩
  | evict k i hk hl =>
    obtain ⟨h1, h2, h3⟩ := h.evict hk hl (hn.spares h hk)
    exact ⟨h1, hn.evict h hk hl, h2, h3⟩
  | new_inode k dir mode rdev inode v hk heq =>
    obtain ⟨h1, h2, h3⟩ := h.new_inode hk heq rdev
    exact ⟨h1, hn.new_inode h.geometry.toGeometry heq rdev, h2,
      fun _ hx => h3 hx⟩
  | no_inode dir mode e v heq =>
    obtain ⟨h1, h2, h3⟩ := h.no_inode heq
    rcases gas_new_inode_cases h.geometry.toGeometry hn.limit dir mode with
      ⟨ino, hint, he, -⟩ | ⟨e', he, -⟩
    · rw [he] at heq
      simp at heq
    · rw [he] at heq
      obtain rfl : { d.vol with tick := d.vol.tick + 1 } = v := (Prod.mk.inj (Prod.mk.inj heq).2).2
      exact ⟨h1, hn.congr rfl (fun _ _ _ hu => hu) hn.ino, h2, fun _ hx => h3 hx⟩
  | write k i block f hk hb hp hne =>
    obtain ⟨c', hs, he⟩ := h.write f hk hb hp hne
    rw [← he]
    exact ⟨h.own hk hb hs, hn.own hk hs, hs.vol.env,
      fun hio hx => hx.own h hk hb hs hio⟩

/-- The block map and the slots agree exactly.  This is what a file system check would establish. -/
def Fs.Accounted (d : Fs K) : Prop := d.Sound ∧ d.Exact

/-- Any number of operations, on any inodes, in any order.  Requests may fail anywhere on the
way. -/
abbrev Fs.Run : Fs K → Fs K → Prop := Relation.ReflTransGen Fs.Step

/-- **Over any run no block is owned twice and none in use is marked free; if the buffer reads
succeed, none unowned is marked used.** -/
theorem Fs.run_accounted {d d' : Fs K} (hacc : d.Accounted) (hn : d.Numbered)
    (run : Fs.Run d d') :
    d'.Sound ∧ d'.Numbered ∧ ((∀ n, d.vol.env.bread n = true) → d'.Accounted) := by
  have hinv : d'.Sound ∧ d'.Numbered ∧ d'.vol.env = d.vol.env ∧
      ((∀ n, d.vol.env.bread n = true) → d'.Exact) := by
    induction run with
    | refl => exact ⟨hacc.1, hn, rfl, fun _ => hacc.2⟩
    | tail _ hstep ih =>
      obtain ⟨h1, h2, h3, h4⟩ := ih
      obtain ⟨s1, s2, s3, s4⟩ := hstep.sound h1 h2
      exact ⟨s1, s2, s3.trans h3, fun hio => s4 (by rw [h3]; exact hio) (h4 hio)⟩
  exact ⟨hinv.1, hinv.2.1, fun hio => ⟨hinv.1, hinv.2.2.2 hio⟩⟩

/-! ## 5. A small volume

On which the two conditions can be seen to be needed. -/

/-- Six blocks: the superblock, two maps, an inode list of 64 records and two data blocks, both
in use.  Block 4 is an indirect block whose first entry is block 5; `x` is that entry. -/
def small_vol (reads : Bool) (x : Nat) : Vol where
  sbi := gas_super_block_fill ⟨MAGIC_NUMBER, 4096, 1, 1, 1, 6, 64⟩
  s_blocksize_bits := 12
  s_bam_last := ⟨0, by decide⟩
  s_iam_last := ⟨0, by decide⟩
  bam := fun _ _ => true
  iam := fun _ _ => true
  words := fun b i => if b = 4 ∧ i = 0 then x else 0
  env := ⟨fun _ => reads, fun _ => true, fun _ _ => 0, fun _ => true, fun _ => 0, 0, 0⟩
  tick := 0

/-- An inode of the small volume. -/
def small_inode (ino : Nat) (mode : BitVec 16) (nlink : BitVec 32) (blkaddr : Nat → Nat) : Inode :=
  ⟨ino, mode, nlink, 0, 0, 0, 0, 0, 0, 0, .none, blkaddr, fun _ _ => 0, false⟩

/-- A regular file with both blocks, and an unlinked character device whose `blkaddr` holds the
number 5. -/
def small_fs (reads : Bool) (x ino : Nat) : Fs Bool where
  vol := small_vol reads x
  inodes := fun k => if k then some (small_inode 2 S_IFREG 1 fun i => if i = 6 then 4 else 0)
    else some (small_inode ino S_IFCHR 0 fun _ => 5)

/-- The slots of the regular file. -/
theorem small_val {w : Nat → Nat → Nat} {x : Nat} (hw : ∀ j, w 4 j = if j = 0 then x else 0)
    {q : List Nat} (hq : shape.IsPath q) :
    val w (fun i => if i = 6 then 4 else 0) q =
      if q = [6] then 4 else if q = [6, 0] then x else 0 := by
  match q, hq with
  | [], hq => exact hq.elim
  | [i], _ => simp [val]
  | i :: j :: r, hq =>
    obtain ⟨-, hl, -⟩ := isPath_cons.mp hq
    by_cases hi : i = 6
    · subst hi
      obtain rfl : r = [] := List.length_eq_zero_iff.mp (by simp only [List.length_cons] at hl; omega)
      by_cases hj : j = 0 <;> simp [val, walk, hw, hj]
    · simp [val, hi]

theorem small_slot (reads : Bool) (x ino : Nat) (k : Bool) {q : List Nat} (hq : shape.IsPath q) :
    (small_fs reads x ino).slot k q =
      if k = true ∧ q = [6] then 4 else if k = true ∧ q = [6, 0] then x else 0 := by
  cases k with
  | false =>
    have hb : has_blocks S_IFCHR = false := by decide
    simp [Fs.slot, small_fs, small_inode, hb]
  | true =>
    have hb : has_blocks S_IFREG = true := by decide
    have h := small_val (w := (small_vol reads x).words) (x := x)
      (fun j => by simp [small_vol]) hq
    simpa [Fs.slot, small_fs, small_inode, hb, Ctx.val] using h

theorem small_geometry (reads : Bool) (x : Nat) : TreeGeometry (small_vol reads x) where
  blocksize := rfl
  blocksize_bits := rfl
  bits_per_block := rfl
  inodes_per_block := rfl
  data_pos := by show 0 < 4; omega
  covers := by show 6 ≤ 1 * 32768; omega
  nblocks_lt := by show 6 < 4294967296; omega
  nblocks_le := by show 6 ≤ 1073741824; omega

/-- The books of the small volume are exact. -/
theorem small_accounted (reads : Bool) (ino : Nat) : (small_fs reads 5 ino).Accounted := by
  have hz : ∀ b, (small_fs reads 5 ino).vol.InZone b ↔ 4 ≤ b ∧ b < 6 := fun _ => Iff.rfl
  refine ⟨⟨small_geometry reads 5, fun _ _ _ => rfl, ?_, ?_, fun _ _ _ _ => rfl⟩, ?_⟩
  · intro k k' q q' hq hq' hne he
    rw [small_slot _ _ _ _ hq] at hne he
    rw [small_slot _ _ _ _ hq'] at he
    split_ifs at hne he with h1 h2 h3 h4 h5 h6 <;> simp_all
  · intro k q hq hne
    rw [small_slot _ _ _ _ hq] at hne ⊢
    rw [hz]
    split_ifs at hne ⊢ <;> omega
  · intro b hb _
    rw [hz] at hb
    have h6 : shape.IsPath [6] := isPath_cons.mpr ⟨by omega, by simp, by simp⟩
    have h60 : shape.IsPath [6, 0] := isPath_cons.mpr ⟨by omega, by simp, by simp⟩
    by_cases h4 : b = 4
    · exact ⟨true, [6], h6, by rw [small_slot _ _ _ _ h6]; simp [h4]⟩
    · exact ⟨true, [6, 0], h60, by rw [small_slot _ _ _ _ h60]; simp; omega⟩

theorem small_numbered (reads : Bool) (x : Nat) : (small_fs reads x 3).Numbered where
  limit := by show 1 * 32768 ≤ 4294967296; omega
  list n hn := by
    have h : n < 64 := hn
    show 3 + n / 64 < 4
    omega
  padded _ _ _ := rfl
  ino k i hk he := by
    have h64 : i.i_ino = 64 := he
    cases k with
    | true =>
      obtain rfl : small_inode 2 S_IFREG 1 (fun i => if i = 6 then 4 else 0) = i := Option.some.inj hk
      exact absurd h64 (by decide)
    | false =>
      obtain rfl : small_inode 3 S_IFCHR 0 (fun _ => 5) = i := Option.some.inj hk
      exact absurd h64 (by decide)

/-- A run that cuts the file of the small volume to nothing. -/
theorem small_run_accounted :
    Fs.Accounted ((small_fs true 5 3).set true (gas_truncate_inode
      ⟨small_vol true 5, small_inode 2 S_IFREG 1 fun i => if i = 6 then 4 else 0, 0⟩)) :=
  (Fs.run_accounted (small_accounted true 3) (small_numbered true 5)
    (Relation.ReflTransGen.single (Fs.Step.truncate true
      (small_inode 2 S_IFREG 1 fun i => if i = 6 then 4 else 0) 0 rfl (by decide)))).2.2
    fun _ => rfl

/-- **Both conditions are needed.**  When the read of the indirect block fails, truncating the
file drops block 4 and leaves it marked.  When the unlinked device has the number `s_ninodes`,
evicting it clears the first word of block 4, and block 5 is lost. -/
theorem Fs.accounting_needs_reads_and_numbers :
    (∃ d d' : Fs Bool, d.Accounted ∧ d.Numbered ∧ Fs.Step d d' ∧ ¬d'.Accounted) ∧
      (∃ d d' : Fs Bool, d.Accounted ∧ (∀ n, d.vol.env.bread n = true) ∧ Fs.Step d d' ∧
        ¬d'.Accounted) := by
  constructor
  · refine ⟨small_fs false 5 3, _, small_accounted false 3, small_numbered false 5,
      Fs.Step.truncate true (small_inode 2 S_IFREG 1 fun i => if i = 6 then 4 else 0) 0 rfl
        (by decide), ?_⟩
    rintro ⟨-, hx⟩
    obtain ⟨k, q, hq, he⟩ := hx 4 ⟨by decide, by decide⟩ (by decide)
    obtain ⟨i, hk, hb⟩ := Fs.slot_ne_zero (by rw [he]; omega)
    cases k with
    | false =>
      obtain rfl : small_inode 3 S_IFCHR 0 (fun _ => 5) = i := Option.some.inj hk
      exact absurd hb (by decide)
    | true =>
      have hok := ((small_accounted false 3).1.treeOk (k := true) rfl (by decide)).withInode
        (i := { small_inode 2 S_IFREG 1 (fun i => if i = 6 then 4 else 0) with i_size := 0 }) rfl
      have hval := Fs.slot_of_blocks hk hb q
      rw [he, ← Option.some.inj hk] at hval
      exact truncate_zero_holds hok rfl 4 ⟨by omega, q, hq, hval.symm⟩
  · refine ⟨small_fs true 5 64, _, small_accounted true 64, fun _ => rfl,
      Fs.Step.evict false (small_inode 64 S_IFCHR 0 fun _ => 5) rfl rfl, ?_⟩
    rintro ⟨-, hx⟩
    obtain ⟨k, q, hq, he⟩ := hx 5 ⟨by decide, by decide⟩ (by decide)
    obtain ⟨i, hk, hb⟩ := Fs.slot_ne_zero (by rw [he]; omega)
    cases k with
    | false => exact absurd hk (by simp)
    | true =>
      obtain rfl : small_inode 2 S_IFREG 1 (fun i => if i = 6 then 4 else 0) = i :=
        Option.some.inj hk
      have hw : (gas_evict_inode ⟨small_vol true 5, small_inode 64 S_IFCHR 0 fun _ => 5, 0⟩).v.words =
          write_word (small_vol true 5).words 4 0 0 := rfl
      have hval := small_val (w := write_word (small_vol true 5).words 4 0 0) (x := 0)
        (fun j => by simp [write_word, small_vol]) hq
      rw [Fs.slot_of_blocks hk hb] at he
      have he' : val (write_word (small_vol true 5).words 4 0 0)
          (fun i => if i = 6 then 4 else 0) q = 5 := he
      rw [hval] at he'
      split_ifs at he'; omega

end GasFs
