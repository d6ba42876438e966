/-
# Mounting: `gas_fill_super`, and the array of map buffers

Mounting reads the superblock, allocates one array for the buffers of both bitmaps, fills it from
the device, and looks up the root inode.  The array has `s_bam_blocks + s_iam_blocks` elements, a sum
of two 32-bit numbers computed in 32 bits; `s_bam_bh` points to its beginning and `s_iam_bh` to the
element `s_bam_blocks`.

`FillSuper` records beside the result which elements of the array the function touched, and
`gas_put_super_log`, `MapOp.log` record the same of unmounting and of the four functions of
`bitmap.c`.  `mount_in_bounds_iff` is the exact condition under which all of these lie in the array:
the sum must not wrap, the allocation must not fail (the result is not checked), and what is mounted
must not have more map blocks than an `int` can count.

An access is an element of the array, as an integer, because `gas_put_super` and the two searches
count with an `int`: from `2 ^ 31` map blocks on their index is negative.  The two freeing functions
divide the number they are given and compare the quotient with the number of map blocks, so they
stay inside.

Whether mounting fails half-way is for the environment to say.  The clean-up at the label `error`
releases all elements, loaded or not, since `kzalloc` has cleared them; so the elements touched are
the same whichever read fails, and the condition does not mention the reads.
-/
import GasFs.InodeTable

namespace GasFs

open Bytes

/-! ## 1. Mounting

The requests are numbered: memory for the superblock, the read of block 0, memory for the array,
then the map blocks in order, and the root at last. -/

/-- The device, and what the block layer says to a block size: the logarithm of the size it sets, or
none.  Block 0 is read before the block size is set.  Nothing is assumed of what the blocks hold. -/
structure Host where
  super : Mem
  blocks : Nat → Nat → Mem
  sb_set_blocksize : Nat → Option Nat

/-- `struct gas_super_block` in the bytes of block 0.  The fields follow each other as 32-bit
numbers, the low byte first. -/
def super_block_of (block : Mem) : SuperBlock where
  s_magic := le32 block 0
  s_blocksize := le32 block 4
  s_bam_blocks := le32 block 8
  s_iam_blocks := le32 block 12
  s_inode_blocks := le32 block 16
  s_nblocks := le32 block 20
  s_ninodes := le32 block 24

/-- `gas_super_block_read`: the first allocation and the first buffer read. -/
def gas_super_block_read (env : Env) (super : Mem) : Option SbInfo :=
  if env.mem 0 = false then none
  else if env.bread 1 = false then none
  else
    let sbi := gas_super_block_fill (super_block_of super)
    if sbi.s_magic ≠ MAGIC_NUMBER then none else some sbi

/-- A loading loop from `i` on, `n` rounds before its end, over the elements from `base` on: the
elements stored and tested, and whether every buffer was read.  `tick` counts the requests.  It
stops at the first buffer that cannot be read. -/
def load_maps (env : Env) (base : Nat) : Nat → Nat → Nat → List Nat × Bool
  | 0, _, _ => ([], true)
  | n + 1, i, tick =>
    if env.bread tick = false then ([base + i, base + i], false)
    else
      let (log, ok) := load_maps env base n (i + 1) (tick + 1)
      ((base + i) :: (base + i) :: log, ok)

/-- The label `error`: every element is released.  The source does not remember how far the loading
came. -/
def release_maps (sbi : SbInfo) : List Nat :=
  List.range sbi.s_bam_blocks ++ (List.range sbi.s_iam_blocks).map (sbi.s_bam_blocks + ·)

/-- What `gas_fill_super` did: the length of the array it allocated, the elements touched, the
mounted volume with the root inode.  When the mount fails the result is the error. -/
structure FillSuper where
  map_len : Nat
  log : List Nat
  result : Except Errno (Vol × Inode)

/-- The volume once both maps are loaded. -/
def mounted_vol (sbi : SbInfo) (hb : 0 < sbi.s_bam_blocks) (hi : 0 < sbi.s_iam_blocks) (bits : Nat)
    (blocks : Nat → Mem) (env : Env) : Vol where
  sbi := sbi
  s_blocksize_bits := bits
  s_bam_last := ⟨0, hb⟩
  s_iam_last := ⟨0, hi⟩
  bam i bit := map_bit (blocks (1 + i)) bit
  iam i bit := map_bit (blocks (1 + sbi.s_bam_blocks + i)) bit
  words b w := le32 (blocks b) (4 * w)
  env := env
  tick := 3 + sbi.s_bam_blocks + sbi.s_iam_blocks

/-- The end of `gas_fill_super`: the root inode and its dentry.  It fails without memory, when the
record cannot be read, and when there is no dentry for it. -/
def make_root (dev : DevCodec) (v : Vol) : Except Errno (Vol × Inode) :=
  match gas_iget dev (fun _ => none) v GAS_ROOT_INO with
  | (.error e, _) => .error e
  | (.ok root, v) =>
    -- d_make_root
    if v.env.mem v.tick = false then .error .ENOMEM else .ok ({ v with tick := v.tick + 1 }, root)

/-- `gas_fill_super`, with every exit.  The array is allocated with `kzalloc` and the result is not
checked before the first buffer is stored. -/
def gas_fill_super (dev : DevCodec) (host : Host) (env : Env) : FillSuper :=
  match gas_super_block_read env host.super with
  | none => ⟨0, [], .error .EINVAL⟩
  | some sbi =>
    match host.sb_set_blocksize sbi.s_blocksize with
    | none => ⟨0, [], .error .EINVAL⟩
    | some bits =>
      if h : 0 < sbi.s_bam_blocks ∧ 0 < sbi.s_iam_blocks ∧ 0 < sbi.s_inode_blocks then
        -- kzalloc; its result is used as it comes
        let map_len := if env.mem 2 then u32 (sbi.s_bam_blocks + sbi.s_iam_blocks) else 0
        let bam := load_maps env 0 sbi.s_bam_blocks 0 3
        if bam.2 = false then ⟨map_len, bam.1 ++ release_maps sbi, .error Errno.EIO⟩
        else
          let iam := load_maps env sbi.s_bam_blocks sbi.s_iam_blocks 0 (3 + sbi.s_bam_blocks)
          if iam.2 = false then ⟨map_len, bam.1 ++ iam.1 ++ release_maps sbi, .error Errno.EIO⟩
          else
            ⟨map_len, bam.1 ++ iam.1,
              make_root dev
                (mounted_vol sbi h.1 h.2.1 bits (host.blocks sbi.s_blocksize) env)⟩
      else ⟨0, [], .error .EINVAL⟩

/-- `gas_put_super`: its two loops count with an `int`. -/
def gas_put_super_log (sbi : SbInfo) : List Int :=
  (List.range sbi.s_bam_blocks).map int32 ++
    (List.range sbi.s_iam_blocks).map fun i => sbi.s_bam_blocks + int32 i

/-! ## 2. The functions of `bitmap.c`

The accesses they make, in terms of the map blocks they look at. -/

/-- The map blocks that `map_search` looks at. -/
def map_search_visits {n : Nat} (map : Nat → Nat → Bool) (bits : Nat) (last : Fin n) :
    Nat → Fin n → List (Fin n)
  | 0, _ => []
  | fuel + 1, i =>
    if find_first_zero_bit (map i) bits < bits then [i]
    else if next_map i = last then [i]
    else i :: map_search_visits map bits last fuel (next_map i)

/-- Calls of the four functions.  A volume that is mounted sees no other accesses to the array but
those of `gas_statfs`. -/
inductive MapOp where
  | gas_new_block
  | gas_free_block (block : Nat)
  | gas_new_inode (dir : Inode) (mode : BitVec 16)
  | gas_free_inode (inode : Inode)

def MapOp.run (v : Vol) : MapOp → Vol
  | .gas_new_block => (GasFs.gas_new_block v).2.2
  | .gas_free_block block => GasFs.gas_free_block v block
  | .gas_new_inode dir mode => (GasFs.gas_new_inode v dir mode).2.2
  | .gas_free_inode inode => GasFs.gas_free_inode v inode

/-- The elements of the array a call touches.  The two searches count with an `int`, the other two
functions with an `unsigned long`. -/
def MapOp.log (v : Vol) : MapOp → List Int
  | .gas_new_block =>
    (map_search_visits v.bam v.sbi.s_bits_per_block v.s_bam_last v.sbi.s_bam_blocks v.s_bam_last).map
      fun i : Fin _ => int32 i
  | .gas_free_block block =>
    let idx := block / 2 ^ (v.s_blocksize_bits + 3)
    if block < v.sbi.s_data_block_start ∨ v.sbi.s_nblocks ≤ block ∨ v.sbi.s_bam_blocks ≤ idx then []
    else [(idx : Int)]
  | .gas_new_inode _ _ =>
    if v.env.mem v.tick = false then []
    else
      (map_search_visits v.iam v.sbi.s_bits_per_block v.s_iam_last v.sbi.s_iam_blocks
        v.s_iam_last).map fun i : Fin _ => v.sbi.s_bam_blocks + int32 i
  | .gas_free_inode inode =>
    let idx := inode.i_ino / 2 ^ (v.s_blocksize_bits + 3)
    if inode.i_ino < 1 ∨ v.sbi.s_ninodes < inode.i_ino ∨ v.sbi.s_iam_blocks ≤ idx then []
    else [(v.sbi.s_bam_blocks : Int) + idx]

/-- The elements touched by a sequence of calls and the unmounting after them.  Each call is judged
in the state that the calls before it leave. -/
def MapOp.logs (v : Vol) : List MapOp → List Int
  | [] => gas_put_super_log v.sbi
  | op :: ops => op.log v ++ MapOp.logs (op.run v) ops

/-! ## 3. What the loops touch

Loading, and the clean-up after a failure. -/

/-- A loading loop touches elements of its own range only. -/
theorem load_maps_mem {env : Env} {base x : Nat} : ∀ {n i tick : Nat},
    x ∈ (load_maps env base n i tick).1 → base + i ≤ x ∧ x < base + i + n := by
  intro n
  induction n with
  | zero => exact fun h => absurd h (by simp [load_maps])
  | succ n ih =>
    intro i tick h
    simp only [load_maps] at h
    split at h
    · simp only [List.mem_cons, List.not_mem_nil, or_false, or_self] at h
      omega
    · rcases List.mem_cons.mp h with rfl | h
      · omega
      · rcases List.mem_cons.mp h with rfl | h
        · omega
        · have := ih h
          omega

/-- It touches the first, and all of them if it gets through. -/
theorem load_maps_touches (env : Env) (base : Nat) : ∀ (n i tick : Nat),
    (0 < n → base + i ∈ (load_maps env base n i tick).1) ∧
      ((load_maps env base n i tick).2 = true →
        ∀ j < n, base + i + j ∈ (load_maps env base n i tick).1) := by
  intro n
  induction n with
  | zero =>
    exact fun i tick => ⟨fun h => absurd h (Nat.lt_irrefl 0), fun _ j hj => absurd hj (Nat.not_lt_zero j)⟩
  | succ n ih =>
    intro i tick
    simp only [load_maps]
    split
    · exact ⟨fun _ => List.mem_cons_self, fun h => absurd h Bool.false_ne_true⟩
    · refine ⟨fun _ => List.mem_cons_self, fun h j hj => ?_⟩
      rcases j with _ | j
      · exact List.mem_cons_self
      · have hmem := (ih (i + 1) (tick + 1)).2 h j (by omega)
        rw [show base + i + (j + 1) = base + (i + 1) + j by omega]
        exact List.mem_cons_of_mem _ (List.mem_cons_of_mem _ hmem)

/-- It gets through when every buffer can be read. -/
theorem load_maps_ok (env : Env) (base : Nat) : ∀ (n i tick : Nat),
    (load_maps env base n i tick).2 = true ↔ ∀ j < n, env.bread (tick + j) = true := by
  intro n
  induction n with
  | zero => exact fun i tick => iff_of_true rfl fun j hj => absurd hj (Nat.not_lt_zero j)
  | succ n ih =>
    intro i tick
    simp only [load_maps]
    split
    · next h0 =>
      refine iff_of_false Bool.false_ne_true fun h => ?_
      have := h 0 (Nat.succ_pos n)
      rw [Nat.add_zero, h0] at this
      exact Bool.false_ne_true this
    · next h0 =>
      rw [ih]
      constructor
      · intro h j hj
        rcases j with _ | j
        · rw [Nat.add_zero]
          exact Bool.of_not_eq_false h0
        · rw [show tick + (j + 1) = tick + 1 + j by omega]
          exact h j (by omega)
      · intro h j hj
        rw [show tick + 1 + j = tick + (j + 1) by omega]
        exact h (j + 1) (by omega)

/-- The clean-up touches every element there should be. -/
theorem mem_release_maps {sbi : SbInfo} {x : Nat} :
    x ∈ release_maps sbi ↔ x < sbi.s_bam_blocks + sbi.s_iam_blocks := by
  simp only [release_maps, List.mem_append, List.mem_range, List.mem_map]
  constructor
  · rintro (h | ⟨i, hi, rfl⟩)
    · omega
    · omega
  · intro h
    rcases Nat.lt_or_ge x sbi.s_bam_blocks with hlt | hge
    · exact Or.inl hlt
    · exact Or.inr ⟨x - sbi.s_bam_blocks, by omega, by omega⟩

/-! ## 4. What mounting touches

The whole first part of the array, at least. -/

/-- Mounting stops before it allocates the array: no memory, no superblock, or a superblock with
another magic number, a block size that is not set, or without a map or an inode list.  These are
the tests in front of `kzalloc`, in their order. -/
def Refused (host : Host) (env : Env) : Prop :=
  let dsb := super_block_of host.super
  env.mem 0 = false ∨ env.bread 1 = false ∨ dsb.s_magic ≠ MAGIC_NUMBER ∨
    host.sb_set_blocksize dsb.s_blocksize = none ∨
    dsb.s_bam_blocks = 0 ∨ dsb.s_iam_blocks = 0 ∨ dsb.s_inode_blocks = 0

/-- Every later request succeeds: `s` map buffers, the root inode and its record, its dentry.  They
come behind the allocation of the array. -/
def Served (env : Env) (s : Nat) : Prop :=
  (∀ j < s, env.bread (3 + j) = true) ∧ env.mem (3 + s) = true ∧ env.bread (4 + s) = true ∧
    env.mem (5 + s) = true

theorem gas_super_block_read_eq (env : Env) (super : Mem) :
    gas_super_block_read env super =
      if env.mem 0 = false ∨ env.bread 1 = false ∨ (super_block_of super).s_magic ≠ MAGIC_NUMBER
      then none else some (gas_super_block_fill (super_block_of super)) := by
  unfold gas_super_block_read
  cases h0 : env.mem 0 with
  | false => simp
  | true =>
    cases h1 : env.bread 1 with
    | false => simp
    | true =>
      simp only [Bool.true_eq_false, if_false, false_or]
      rfl

/-- A refused superblock touches nothing. -/
theorem gas_fill_super_refused (dev : DevCodec) {host : Host} {env : Env} (h : Refused host env) :
    gas_fill_super dev host env = ⟨0, [], .error .EINVAL⟩ := by
  unfold gas_fill_super
  rw [gas_super_block_read_eq]
  by_cases hr : env.mem 0 = false ∨ env.bread 1 = false ∨
      (super_block_of host.super).s_magic ≠ MAGIC_NUMBER
  · rw [if_pos hr]
  · rw [if_neg hr]
    simp only [not_or] at hr
    obtain ⟨h0, h1, h2⟩ := hr
    have hrest := ((h.resolve_left h0).resolve_left h1).resolve_left h2
    generalize hsbi : gas_super_block_fill (super_block_of host.super) = sbi
    replace hrest : host.sb_set_blocksize sbi.s_blocksize = none ∨
        sbi.s_bam_blocks = 0 ∨ sbi.s_iam_blocks = 0 ∨ sbi.s_inode_blocks = 0 := by
      rw [← hsbi]
      exact hrest
    dsimp only
    cases hs : host.sb_set_blocksize sbi.s_blocksize with
    | none => rfl
    | some bits =>
      dsimp only
      rw [dif_neg]
      rintro ⟨hb, hi, hn⟩
      rw [hs] at hrest
      rcases hrest with h | h | h | h
      · exact Option.some_ne_none bits h
      · exact hb.ne' h
      · exact hi.ne' h
      · exact hn.ne' h

/-- Looking up the root changes nothing of the volume but the number of requests made. -/
theorem make_root_ok {dev : DevCodec} {v v' : Vol} {root : Inode}
    (h : make_root dev v = .ok (v', root)) : ∃ tick, v' = { v with tick := tick } := by
  unfold make_root gas_iget sb_bread at h
  cases h0 : v.env.mem v.tick with
  | false => simp [h0] at h
  | true =>
    cases h1 : v.env.bread (v.tick + 1) with
    | false => simp [h0, h1] at h
    | true =>
      simp only [h0, h1, Bool.true_eq_false, if_false] at h
      split_ifs at h
      exact ⟨_, (Prod.mk.inj (Except.ok.inj h)).1.symm⟩

/-- The root is the inode of its record. -/
theorem make_root_inode {dev : DevCodec} {v v' : Vol} {root : Inode}
    (h : make_root dev v = .ok (v', root)) : ∃ rdev, root =
      gas_set_inode (gas_inode_fill (iget_locked_new GAS_ROOT_INO) (disk_inode v GAS_ROOT_INO))
        rdev := by
  unfold make_root gas_iget sb_bread at h
  cases h0 : v.env.mem v.tick with
  | false => simp [h0] at h
  | true =>
    cases h1 : v.env.bread (v.tick + 1) with
    | false => simp [h0, h1] at h
    | true =>
      simp only [h0, h1, Bool.true_eq_false, if_false] at h
      split_ifs at h
      exact ⟨_, (Prod.mk.inj (Except.ok.inj h)).2.symm⟩

/-- Looking up the root keeps the superblock, and takes three requests. -/
theorem make_root_cases (dev : DevCodec) (v : Vol) :
    (∀ v' root, make_root dev v = .ok (v', root) → v'.sbi = v.sbi) ∧
      ((∃ v' root, make_root dev v = .ok (v', root)) ↔
        v.env.mem v.tick = true ∧ v.env.bread (v.tick + 1) = true ∧
          v.env.mem (v.tick + 2) = true) := by
  cases h0 : v.env.mem v.tick with
  | false => simp [make_root, gas_iget, h0]
  | true =>
    cases h1 : v.env.bread (v.tick + 1) with
    | false => simp [make_root, gas_iget, sb_bread, h0, h1]
    | true =>
      cases h2 : v.env.mem (v.tick + 2) with
      | false => simp [make_root, gas_iget, sb_bread, h0, h1, h2]
      | true =>
        simp only [make_root, gas_iget, sb_bread, h0, h1, h2, Bool.true_eq_false, if_false,
          Except.ok.injEq, Prod.mk.injEq, and_true]
        exact ⟨fun v' root h => h.1 ▸ rfl, fun _ => trivial, fun _ => ⟨_, _, rfl, rfl⟩⟩

/-- The requests of a mount, in order. -/
theorem served_iff (env : Env) (m n : Nat) :
    Served env (m + n) ↔
      (∀ j < m, env.bread (3 + j) = true) ∧ (∀ j < n, env.bread (3 + m + j) = true) ∧
        env.mem (3 + m + n) = true ∧ env.bread (3 + m + n + 1) = true ∧
        env.mem (3 + m + n + 2) = true := by
  rw [Served, show 3 + (m + n) = 3 + m + n by omega, show 4 + (m + n) = 3 + m + n + 1 by omega,
    show 5 + (m + n) = 3 + m + n + 2 by omega]
  constructor
  · rintro ⟨h, hrest⟩
    refine ⟨fun j hj => h j (by omega), fun j hj => ?_, hrest⟩
    rw [Nat.add_assoc]
    exact h (m + j) (by omega)
  · rintro ⟨hm, hn, hrest⟩
    refine ⟨fun j hj => ?_, hrest⟩
    rcases Nat.lt_or_ge j m with hlt | hge
    · exact hm j hlt
    · have := hn (j - m) (by omega)
      rwa [show 3 + m + (j - m) = 3 + j by omega] at this

/-- What a mount that gets to the allocation does.  The length is that of the 32-bit sum, which may
be smaller than the elements there should be. -/
structure Started (env : Env) (sbi : SbInfo) (f : FillSuper) : Prop where
  map_len : f.map_len = if env.mem 2 then u32 (sbi.s_bam_blocks + sbi.s_iam_blocks) else 0
  touched : ∀ x ∈ f.log, x < sbi.s_bam_blocks + sbi.s_iam_blocks
  touches : ∀ x < sbi.s_bam_blocks, x ∈ f.log
  keeps : ∀ v root, f.result = .ok (v, root) → v.sbi = sbi
  served : (∃ v root, f.result = .ok (v, root)) ↔ Served env (sbi.s_bam_blocks + sbi.s_iam_blocks)

/-- **A mount that is not refused** touches the whole first part of the array, and nothing beyond
the `s_bam_blocks + s_iam_blocks` elements there should be. -/
theorem gas_fill_super_started (dev : DevCodec) {host : Host} {env : Env} (h : ¬Refused host env) :
    Started env (gas_super_block_fill (super_block_of host.super)) (gas_fill_super dev host env) := by
  simp only [Refused, not_or] at h
  obtain ⟨h0, h1, h2, h3, hpos⟩ := h
  unfold gas_fill_super
  rw [gas_super_block_read_eq, if_neg (not_or.mpr ⟨h0, not_or.mpr ⟨h1, h2⟩⟩)]
  generalize hsbi : gas_super_block_fill (super_block_of host.super) = sbi
  replace h3 : host.sb_set_blocksize sbi.s_blocksize ≠ none := by
    rw [← hsbi]
    exact h3
  obtain ⟨bits, hbits⟩ := Option.ne_none_iff_exists'.mp h3
  obtain ⟨hb, hi, hn⟩ :
      ¬sbi.s_bam_blocks = 0 ∧ ¬sbi.s_iam_blocks = 0 ∧ ¬sbi.s_inode_blocks = 0 := by
    rw [← hsbi]
    exact hpos
  dsimp only
  rw [hbits]
  dsimp only
  rw [dif_pos ⟨by omega, by omega, by omega⟩]
  have hbtouch := (load_maps_touches env 0 sbi.s_bam_blocks 0 3).2
  have hbok := load_maps_ok env 0 sbi.s_bam_blocks 0 3
  have hiok := load_maps_ok env sbi.s_bam_blocks sbi.s_iam_blocks 0 (3 + sbi.s_bam_blocks)
  have hbmem : ∀ x ∈ (load_maps env 0 sbi.s_bam_blocks 0 3).1,
      x < sbi.s_bam_blocks + sbi.s_iam_blocks := by
    intro x hx
    have := load_maps_mem hx
    omega
  have himem : ∀ x ∈ (load_maps env sbi.s_bam_blocks sbi.s_iam_blocks 0
      (3 + sbi.s_bam_blocks)).1, x < sbi.s_bam_blocks + sbi.s_iam_blocks := by
    intro x hx
    have := load_maps_mem hx
    omega
  generalize load_maps env 0 sbi.s_bam_blocks 0 3 = bam at *
  generalize load_maps env sbi.s_bam_blocks sbi.s_iam_blocks 0 (3 + sbi.s_bam_blocks) = iam at *
  by_cases hb2 : bam.2 = false
  · -- a buffer of the block map cannot be read: the clean-up touches every element
    rw [if_pos hb2]
    refine ⟨rfl, fun x hx => ?_, fun x hx => ?_, fun v root hf => ?_, ?_⟩
    · exact (List.mem_append.mp hx).elim (hbmem x) mem_release_maps.mp
    · exact List.mem_append_right _ (mem_release_maps.mpr (Nat.lt_add_right _ hx))
    · exact absurd hf (by simp)
    · refine iff_of_false (by simp) fun hs => ?_
      rw [hbok.mpr ((served_iff env _ _).mp hs).1] at hb2
      exact Bool.false_ne_true hb2.symm
  rw [if_neg hb2]
  by_cases hi2 : iam.2 = false
  · -- one of the inode map
    rw [if_pos hi2]
    refine ⟨rfl, fun x hx => ?_, fun x hx => ?_, fun v root hf => ?_, ?_⟩
    · rcases List.mem_append.mp hx with hx | hx
      · exact (List.mem_append.mp hx).elim (hbmem x) (himem x)
      · exact mem_release_maps.mp hx
    · exact List.mem_append_right _ (mem_release_maps.mpr (Nat.lt_add_right _ hx))
    · exact absurd hf (by simp)
    · refine iff_of_false (by simp) fun hs => ?_
      rw [hiok.mpr ((served_iff env _ _).mp hs).2.1] at hi2
      exact Bool.false_ne_true hi2.symm
  · -- both maps are loaded
    rw [if_neg hi2]
    rw [Bool.not_eq_false] at hb2 hi2
    obtain ⟨hroot, hserved⟩ := make_root_cases dev
      (mounted_vol sbi (by omega) (by omega) bits (host.blocks sbi.s_blocksize) env)
    refine ⟨rfl, fun x hx => ?_, fun x hx => ?_, fun v root hf => hroot v root hf, ?_⟩
    · exact (List.mem_append.mp hx).elim (hbmem x) (himem x)
    · exact List.mem_append_left _ (by simpa using hbtouch hb2 x hx)
    · rw [served_iff]
      refine hserved.trans ⟨fun h => ⟨hbok.mp hb2, hiok.mp hi2, h⟩, fun h => h.2.2⟩

/-- A mount that succeeds gives the volume with both maps loaded, and the root inode of its table. -/
theorem gas_fill_super_ok {dev : DevCodec} {host : Host} {env : Env} {v : Vol} {root : Inode}
    (h : (gas_fill_super dev host env).result = .ok (v, root)) :
    ¬Refused host env ∧ ∃ bits hb hi,
      host.sb_set_blocksize (super_block_of host.super).s_blocksize = some bits ∧
      make_root dev (mounted_vol (gas_super_block_fill (super_block_of host.super)) hb hi bits
        (host.blocks (super_block_of host.super).s_blocksize) env) = .ok (v, root) := by
  have hr : ¬Refused host env := fun hr => by
    rw [gas_fill_super_refused dev hr] at h
    exact absurd h (by simp)
  refine ⟨hr, ?_⟩
  simp only [Refused, not_or] at hr
  obtain ⟨h0, h1, h2, h3, hb, hi, hn⟩ := hr
  obtain ⟨bits, hbits⟩ := Option.ne_none_iff_exists'.mp h3
  refine ⟨bits, Nat.pos_of_ne_zero hb, Nat.pos_of_ne_zero hi, hbits, ?_⟩
  unfold gas_fill_super at h
  rw [gas_super_block_read_eq, if_neg (not_or.mpr ⟨h0, not_or.mpr ⟨h1, h2⟩⟩)] at h
  have hbits' : host.sb_set_blocksize
      (gas_super_block_fill (super_block_of host.super)).s_blocksize = some bits := hbits
  dsimp only at h
  rw [hbits'] at h
  dsimp only at h
  split_ifs at h
  all_goals exact h

/-- What `sb_set_blocksize` does: it sets a power of two from 512 bytes to a page, or fails.  The
result is the logarithm of the size. -/
def Host.BlockSizes (host : Host) : Prop :=
  ∀ size bits, host.sb_set_blocksize size = some bits → size = 2 ^ bits ∧ 9 ≤ bits ∧ bits ≤ 12

/-- The block size that a mount leaves. -/
theorem gas_fill_super_bits {dev : DevCodec} {host : Host} (hhost : host.BlockSizes) {env : Env}
    {v : Vol} {root : Inode} (h : (gas_fill_super dev host env).result = .ok (v, root)) :
    v.sbi.s_blocksize = 2 ^ v.s_blocksize_bits ∧ 9 ≤ v.s_blocksize_bits ∧
      v.s_blocksize_bits ≤ 12 := by
  obtain ⟨-, bits, hb, hi, hbits, hroot⟩ := gas_fill_super_ok h
  obtain ⟨tick, rfl⟩ := make_root_ok hroot
  exact hhost _ _ hbits

/-! ## 5. What the mounted volume touches

In any state that the functions reach from the mounted one. -/

/-- The calls keep the superblock. -/
theorem MapOp.run_sbi (v : Vol) (op : MapOp) : (op.run v).sbi = v.sbi := by
  cases op with
  | gas_new_block =>
    simp only [MapOp.run, GasFs.gas_new_block]
    split <;> rfl
  | gas_free_block block =>
    simp only [MapOp.run, GasFs.gas_free_block]
    split
    · rfl
    · split <;> rfl
  | gas_new_inode dir mode =>
    simp only [MapOp.run, GasFs.gas_new_inode]
    split
    · rfl
    · split <;> rfl
  | gas_free_inode inode =>
    obtain ⟨words, he, -⟩ := gas_clear_inode_eq v inode.i_ino
    simp only [MapOp.run, GasFs.gas_free_inode]
    split
    · rfl
    · split
      · rfl
      · rw [he]

theorem int32_of_lt {n : Nat} (h : n < 2147483648) : int32 n = n := by
  simp only [int32]
  split <;> omega

theorem int32_fin {n : Nat} (h : n ≤ 2147483648) (i : Fin n) : int32 i = (i.val : Int) :=
  int32_of_lt (Nat.lt_of_lt_of_le i.isLt h)

/-- **A function of `bitmap.c` stays in the array**, as long as an `int` can count the blocks of
both maps. -/
theorem MapOp.log_bounds {v : Vol} (hb : v.sbi.s_bam_blocks ≤ 2147483648)
    (hi : v.sbi.s_iam_blocks ≤ 2147483648) (op : MapOp) :
    ∀ x ∈ op.log v, 0 ≤ x ∧ x < ((v.sbi.s_bam_blocks + v.sbi.s_iam_blocks : Nat) : Int) := by
  intro x hx
  cases op with
  | gas_new_block =>
    obtain ⟨i, -, rfl⟩ := List.mem_map.mp hx
    rw [int32_fin hb]
    omega
  | gas_free_block block =>
    simp only [MapOp.log] at hx
    split at hx
    · exact absurd hx List.not_mem_nil
    · rw [List.mem_singleton] at hx
      generalize block / 2 ^ (v.s_blocksize_bits + 3) = idx at *
      omega
  | gas_new_inode dir mode =>
    simp only [MapOp.log] at hx
    split at hx
    · exact absurd hx List.not_mem_nil
    · obtain ⟨i, -, rfl⟩ := List.mem_map.mp hx
      rw [int32_fin hi]
      omega
  | gas_free_inode inode =>
    simp only [MapOp.log] at hx
    split at hx
    · exact absurd hx List.not_mem_nil
    · rw [List.mem_singleton] at hx
      generalize inode.i_ino / 2 ^ (v.s_blocksize_bits + 3) = idx at *
      omega

/-- So does unmounting. -/
theorem gas_put_super_bounds {sbi : SbInfo} (hb : sbi.s_bam_blocks ≤ 2147483648)
    (hi : sbi.s_iam_blocks ≤ 2147483648) :
    ∀ x ∈ gas_put_super_log sbi, 0 ≤ x ∧ x < ((sbi.s_bam_blocks + sbi.s_iam_blocks : Nat) : Int) := by
  intro x hx
  rcases List.mem_append.mp hx with hx | hx
  · obtain ⟨i, hi', rfl⟩ := List.mem_map.mp hx
    rw [List.mem_range] at hi'
    rw [int32_of_lt (by omega)]
    omega
  · obtain ⟨i, hi', rfl⟩ := List.mem_map.mp hx
    rw [List.mem_range] at hi'
    rw [int32_of_lt (by omega)]
    omega

/-- With more blocks than that, unmounting reads in front of the array.  The counter is an `int`,
and from 2^31 on it is negative. -/
theorem gas_put_super_negative (sbi : SbInfo)
    (hsum : sbi.s_bam_blocks + sbi.s_iam_blocks < 4294967296)
    (h : 2147483648 < sbi.s_bam_blocks ∨ 2147483648 < sbi.s_iam_blocks) :
    ∃ x ∈ gas_put_super_log sbi, x < 0 := by
  have hwrap : int32 2147483648 = -2147483648 := by decide
  rcases h with h | h
  · refine ⟨_, List.mem_append_left _ (List.mem_map.mpr ⟨_, List.mem_range.mpr h, rfl⟩), ?_⟩
    rw [hwrap]
    decide
  · refine ⟨_, List.mem_append_right _ (List.mem_map.mpr ⟨_, List.mem_range.mpr h, rfl⟩), ?_⟩
    rw [hwrap]
    omega

/-- **A whole run stays in the array**: any calls, then unmounting. -/
theorem MapOp.logs_bounds : ∀ {v : Vol} (ops : List MapOp), v.sbi.s_bam_blocks ≤ 2147483648 →
    v.sbi.s_iam_blocks ≤ 2147483648 → ∀ x ∈ MapOp.logs v ops,
      0 ≤ x ∧ x < ((v.sbi.s_bam_blocks + v.sbi.s_iam_blocks : Nat) : Int) := by
  intro v ops
  induction ops generalizing v with
  | nil => exact fun hb hi => gas_put_super_bounds hb hi
  | cons op ops ih =>
    intro hb hi x hx
    rcases List.mem_append.mp hx with hx | hx
    · exact op.log_bounds hb hi x hx
    · rw [← op.run_sbi v] at hb hi ⊢
      exact ih hb hi x hx

/-! ## 6. The condition

An equivalence, over every superblock, every device and every answer of the kernel. -/

/-- **What is asked**: every element touched by mounting, and after a successful mount by any calls
and the unmounting after them, lies in the array. -/
def MapInBounds (dev : DevCodec) (host : Host) (env : Env) : Prop :=
  let f := gas_fill_super dev host env
  (∀ x ∈ f.log, x < f.map_len) ∧
    ∀ v root, f.result = .ok (v, root) → ∀ ops, ∀ x ∈ MapOp.logs v ops, 0 ≤ x ∧ x < (f.map_len : Int)

/-- The array is allocated, has the length meant, and what gets mounted has no more map blocks than
an `int` can count.  It is said of the superblock and the answers of the kernel. -/
def MapFits (host : Host) (env : Env) : Prop :=
  let dsb := super_block_of host.super
  env.mem 2 = true ∧ dsb.s_bam_blocks + dsb.s_iam_blocks < 4294967296 ∧
    (Served env (dsb.s_bam_blocks + dsb.s_iam_blocks) →
      dsb.s_bam_blocks ≤ 2147483648 ∧ dsb.s_iam_blocks ≤ 2147483648)

/-- A mount that is not refused and whose array does not have the length meant leaves it: the first
loop stores into every element of the block map, up to the first read that fails, and the clean-up
goes through all of them. -/
theorem not_in_bounds_of_short (dev : DevCodec) {host : Host} {env : Env} (h : ¬Refused host env)
    (hshort : env.mem 2 = false ∨
      4294967296 ≤ (super_block_of host.super).s_bam_blocks +
        (super_block_of host.super).s_iam_blocks) :
    ∃ x ∈ (gas_fill_super dev host env).log, (gas_fill_super dev host env).map_len ≤ x := by
  have hst := gas_fill_super_started dev h
  simp only [Refused, not_or] at h
  obtain ⟨-, -, -, -, hb, hi, -⟩ := h
  have hbam : (super_block_of host.super).s_bam_blocks < 4294967296 := le32_lt _ _
  have hiam : (super_block_of host.super).s_iam_blocks < 4294967296 := le32_lt _ _
  refine ⟨_, hst.touches _ ?_, Nat.le_refl _⟩
  rw [hst.map_len]
  simp only [gas_super_block_fill]
  split
  · next hm =>
    have := hshort.resolve_left (by simp [hm])
    rw [u32]
    omega
  · exact Nat.pos_of_ne_zero hb

/-- **The exact condition**: a mount stays in the array of map buffers if and only if it is refused
before the array is allocated, or the array fits. -/
theorem mount_in_bounds_iff (dev : DevCodec) (host : Host) (env : Env) :
    MapInBounds dev host env ↔ Refused host env ∨ MapFits host env := by
  by_cases hr : Refused host env
  · refine iff_of_true ?_ (Or.inl hr)
    rw [MapInBounds, gas_fill_super_refused dev hr]
    exact ⟨fun x hx => absurd hx List.not_mem_nil, fun v root h => absurd h (by simp)⟩
  have hst := gas_fill_super_started dev hr
  simp only [hr, false_or]
  constructor
  · rintro ⟨hlog, hrun⟩
    have hnot : ¬(env.mem 2 = false ∨
        4294967296 ≤ (super_block_of host.super).s_bam_blocks +
          (super_block_of host.super).s_iam_blocks) := by
      intro hshort
      obtain ⟨x, hx, hle⟩ := not_in_bounds_of_short dev hr hshort
      exact absurd (hlog x hx) (Nat.not_lt.mpr hle)
    rw [not_or, Bool.not_eq_false, Nat.not_le] at hnot
    refine ⟨hnot.1, hnot.2, fun hs => ?_⟩
    by_contra hbig
    rw [not_and_or, Nat.not_le, Nat.not_le] at hbig
    obtain ⟨v, root, hok⟩ := hst.served.mpr hs
    obtain ⟨x, hx, hneg⟩ := gas_put_super_negative v.sbi
      (by rw [hst.keeps v root hok]; exact hnot.2) (by rw [hst.keeps v root hok]; exact hbig)
    have := (hrun v root hok [] x hx).1
    omega
  · rintro ⟨hm, hsum, hcount⟩
    have hlen : (gas_fill_super dev host env).map_len =
        (super_block_of host.super).s_bam_blocks + (super_block_of host.super).s_iam_blocks := by
      rw [hst.map_len, hm]
      exact u32_of_lt hsum
    refine ⟨fun x hx => hlen ▸ hst.touched x hx, fun v root hok ops x hx => ?_⟩
    obtain ⟨hb, hi⟩ := hcount (hst.served.mp ⟨v, root, hok⟩)
    have hv := hst.keeps v root hok
    have := MapOp.logs_bounds ops (by rw [hv]; exact hb) (by rw [hv]; exact hi) x hx
    rw [hv] at this
    rw [hlen]
    exact this

/-- A superblock with the right magic number and block size that claims `2 ^ 32 - 1` blocks of block
map and 2 of inode map, on a device whose block 97 cannot be read. -/
def wide_host : Host where
  super k := [0xF5, 0x00, 0x50, 0x6A, 0x00, 0x10, 0x00, 0x00, 0xFF, 0xFF, 0xFF, 0xFF,
    0x02, 0x00, 0x00, 0x00, 0x01, 0x00, 0x00, 0x00, 0x00, 0x01, 0x00, 0x00, 0x40].getD k 0
  blocks _ _ _ := 0
  sb_set_blocksize size := if size = 4096 then some 12 else none

def wide_env : Env :=
  ⟨fun t => decide (t < 100), fun _ => true, fun _ _ => 0, fun _ => true, fun _ => 0, 0, 0⟩

theorem wide_not_refused : ¬Refused wide_host wide_env := by
  simp only [Refused, not_or]
  decide

/-- **The sum wraps**: the array gets one element, and mounting touches more. -/
theorem wide_out_of_bounds : ¬MapInBounds linux_dev wide_host wide_env := by
  rintro ⟨hlog, -⟩
  obtain ⟨x, hx, hle⟩ := not_in_bounds_of_short linux_dev wide_not_refused (Or.inr (by decide))
  exact absurd (hlog x hx) (Nat.not_lt.mpr hle)

end GasFs
