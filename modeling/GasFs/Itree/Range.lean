/-
# Offsets in range

A mount may set any block size the device supports, so the pointers in an indirect block are 128,
256, 512 or 1024.  `block_to_path` refuses a block from `s_nblocks` on and no other, and
`s_nblocks` is a number of the superblock that says nothing about the tree.

`block_to_path_inRange_iff` is what this means for any number of pointers: the offsets are in range
below the capacity of the tree, and out of range from there to `s_nblocks`.
`mounted_path_inRange_iff` reads it for the offsets a file can have, below `2 ^ 31`: only blocks of
512 bytes make a tree small enough to be left.

In range is meant for each access and not only for the path: `get_branch` reads the entries that the
path names, `alloc_branch` writes into new blocks at the offsets of the rest of the path.
`PathInRange.access` leads from the one to the other, on every state.

Out of range is a read behind the end of a buffer in the source.  A 2 GiB volume in blocks of 512
bytes is enough for it, and such a volume mounts (`sector_mounts`).
-/
import GasFs.Itree
import GasFs.Mount

namespace GasFs

/-! ## 1. Ranges

What a path may be, and the capacity of a tree. -/

/-- A path is refused, or has 1 to 4 offsets: a slot of `blkaddr`, then pointers of a block. -/
def PathInRange (v : Vol) (path : List Nat) : Prop :=
  path = [] ∨ path.length ≤ DEPTH ∧ path.headD 0 < 9 ∧ ∀ o ∈ path.tail, o < INDIRCOUNT v

/-- A pointer stored in `blkaddr`, within an indirect block, or in `nr`. -/
def Cell.InRange (v : Vol) : Cell → Prop
  | .idata i => i < 9
  | .blk _ i => i < INDIRCOUNT v
  | .nr => True

/-- The pointers that `get_branch` reads along a path, and those that `alloc_branch` writes from any
place of the path on, are in range. -/
def AccessInRange (v : Vol) (path : List Nat) : Prop :=
  ∀ c : Ctx,
    (∀ q ∈ (get_branch c path).chain, q.p.InRange v) ∧
      ∀ k start, start.p.InRange v → ∀ q ∈ (alloc_branch c (path.drop k) start).2.1, q.p.InRange v

/-- The logical blocks that the tree of one file has a slot for, with `N` pointers to an indirect
block. -/
def tree_capacity (N : Nat) : Nat := DIRECT + N + N * N + N * N * N

/-- **A path is in range exactly when the block is refused or the tree has a slot for it.** Only the
last branch of the source can leave the range, since the others have compared the block with the
size of their tree. -/
theorem block_to_path_inRange_iff {v : Vol} (hN : 0 < INDIRCOUNT v) (b : Nat) :
    PathInRange v (block_to_path v b) ↔
      v.sbi.s_nblocks ≤ b ∨ b < tree_capacity (INDIRCOUNT v) := by
  unfold block_to_path tree_capacity PathInRange
  simp only [Int.toNat_natCast, DIRECT, DEPTH]
  generalize INDIRCOUNT v = N at hN
  rw [if_neg (by omega)]
  split_ifs with h0 h1 h2 h3
  · exact iff_of_true (Or.inl rfl) (Or.inl (by omega))
  · exact iff_of_true (Or.inr ⟨by simp, by simp; omega, by simp⟩) (Or.inr (by omega))
  · exact iff_of_true (Or.inr ⟨by simp, by simp, by simpa using h2⟩) (Or.inr (by omega))
  · have hdiv : (b - 6 - N) / N < N := (Nat.div_lt_iff_lt_mul hN).mpr h3
    have hmod : (b - 6 - N) % N < N := Nat.mod_lt _ hN
    exact iff_of_true (Or.inr ⟨by simp, by simp, by simp [hdiv, hmod]⟩) (Or.inr (by omega))
  · have hmod : ∀ x, x % N < N := fun x => Nat.mod_lt x hN
    have htop : (b - 6 - N - N * N) / N / N < N ↔ b < 6 + N + N * N + N * N * N := by
      rw [Nat.div_lt_iff_lt_mul hN, Nat.div_lt_iff_lt_mul hN]
      omega
    simp only [List.length_cons, List.length_nil, List.headD_cons, List.tail_cons, List.mem_cons,
      List.not_mem_nil, or_false, forall_eq_or_imp, forall_eq, hmod, htop, and_true, false_or]
    omega

/-! ## 2. What a path in range leads to

No assumption on the tree: the pointers may be anything. -/

section Access

variable {v : Vol}

theorem get_branch_loop_inRange {offsets : List Nat} (ho : ∀ o ∈ offsets, o < INDIRCOUNT v) :
    ∀ (c : Ctx) (chain : List Indirect) (p : Indirect), (∀ q ∈ chain, q.p.InRange v) →
      ∀ q ∈ (get_branch_loop c chain p offsets).chain, q.p.InRange v := by
  induction offsets with
  | nil => exact fun c chain p hc => hc
  | cons o offsets ih =>
    intro c chain p hc
    have hsnoc : ∀ (c' : Ctx), ∀ q ∈ chain ++ [add_chain c' (some p.key) (.blk p.key o)],
        q.p.InRange v := by
      intro c' q hq
      rcases List.mem_append.mp hq with hq | hq
      · exact hc q hq
      · obtain rfl := List.mem_singleton.mp hq
        exact ho o List.mem_cons_self
    simp only [get_branch_loop, sb_bread]
    cases c.v.env.bread c.v.tick with
    | false => exact hc
    | true =>
      dsimp only
      split_ifs
      · exact hc
      · exact hsnoc _
      · exact ih (fun x hx => ho x (List.mem_cons_of_mem o hx)) _ _ _ (hsnoc _)

theorem alloc_branch_loop_inRange {offsets : List Nat} (ho : ∀ o ∈ offsets, o < INDIRCOUNT v) :
    ∀ (w : Vol) (parent : Int) (branch : List Indirect), (∀ q ∈ branch, q.p.InRange v) →
      ∀ q ∈ (alloc_branch_loop w parent branch offsets).2.1, q.p.InRange v := by
  induction offsets with
  | nil => exact fun w parent branch hb => hb
  | cons o offsets ih =>
    intro w parent branch hb
    simp only [alloc_branch_loop]
    split_ifs
    · exact hb
    · refine ih (fun x hx => ho x (List.mem_cons_of_mem o hx)) _ _ _ fun q hq => ?_
      rcases List.mem_append.mp hq with hq | hq
      · exact hb q hq
      · obtain rfl := List.mem_singleton.mp hq
        exact ho o List.mem_cons_self

/-- **Along a path in range every access is in range**, whatever pointers are met. -/
theorem PathInRange.access {path : List Nat} (h : PathInRange v path) : AccessInRange v path := by
  have htail : ∀ o ∈ path.tail, o < INDIRCOUNT v := by
    rcases h with rfl | h
    · exact fun o ho => absurd ho List.not_mem_nil
    · exact h.2.2
  intro c
  constructor
  · cases path with
    | nil => exact fun q hq => absurd hq List.not_mem_nil
    | cons o offsets =>
      have hhead : (Cell.idata o).InRange v := (h.resolve_left (List.cons_ne_nil o offsets)).2.1
      have hp : ∀ q ∈ [add_chain c none (.idata o)], q.p.InRange v := by
        intro q hq
        obtain rfl := List.mem_singleton.mp hq
        exact hhead
      simp only [get_branch]
      split_ifs
      · exact hp
      · exact get_branch_loop_inRange htail c _ _ hp
  · intro k start hstart
    have hdrop : ∀ o ∈ (path.drop k).tail, o < INDIRCOUNT v := by
      intro o ho
      rw [List.tail_drop, ← List.drop_tail] at ho
      exact htail o (List.mem_of_mem_drop ho)
    have hone : ∀ key, ∀ q ∈ [{ start with key := key }], q.p.InRange v := by
      intro key q hq
      obtain rfl := List.mem_singleton.mp hq
      exact hstart
    simp only [alloc_branch]
    split_ifs <;> first
      | exact fun q hq => absurd hq List.not_mem_nil
      | exact alloc_branch_loop_inRange hdrop _ _ _ (hone _)

end Access

/-! ## 3. Mounted volumes

File offsets are below `2 ^ 31`: the source leaves `s_maxbytes` at what the kernel puts there. -/

/-- **Paths on a mounted volume.**  For a file offset below `2 ^ 31` the path of its block, and
every pointer read or written along it, is in range exactly unless blocks have 512 bytes and the
block lies between the capacity of that tree, 2113670 blocks, and `s_nblocks`. -/
theorem mounted_path_inRange_iff {dev : DevCodec} {host : Host} (hhost : host.BlockSizes) {env : Env}
    {v : Vol} {root : Inode} (h : (gas_fill_super dev host env).result = .ok (v, root)) {pos : Nat}
    (hpos : pos < 2147483648) :
    (PathInRange v (block_to_path v (pos / v.sbi.s_blocksize : Nat)) ∧
        AccessInRange v (block_to_path v (pos / v.sbi.s_blocksize : Nat))) ↔
      ¬(v.sbi.s_blocksize = 512 ∧ 2113670 ≤ pos / 512 ∧ pos / 512 < v.sbi.s_nblocks) := by
  obtain ⟨hsize, hlo, hhi⟩ := gas_fill_super_bits hhost h
  rw [and_iff_left_of_imp PathInRange.access,
    block_to_path_inRange_iff (Nat.two_pow_pos (v.s_blocksize_bits - 2))]
  unfold INDIRCOUNT tree_capacity
  rw [hsize]
  generalize v.s_blocksize_bits = bits at hlo hhi
  obtain rfl | rfl | rfl | rfl : bits = 9 ∨ bits = 10 ∨ bits = 11 ∨ bits = 12 := by omega
  all_goals norm_num
  all_goals omega

/-- A device of 2 GiB formatted in blocks of 512 bytes: 1024 blocks of block map, 16 of inode map,
8192 of inode list. -/
def sector_host : Host where
  super k := [0xF5, 0x00, 0x50, 0x6A, 0x00, 0x02, 0x00, 0x00, 0x00, 0x04, 0x00, 0x00,
    0x10, 0x00, 0x00, 0x00, 0x00, 0x20, 0x00, 0x00, 0x00, 0x00, 0x40, 0x00,
    0x00, 0x00, 0x01, 0x00].getD k 0
  blocks _ _ _ := 0
  sb_set_blocksize size :=
    if size = 512 then some 9 else if size = 1024 then some 10
    else if size = 2048 then some 11 else if size = 4096 then some 12 else none

/-- A kernel in which every request succeeds. -/
def sector_env : Env := ⟨fun _ => true, fun _ => true, fun _ _ => 0, fun _ => true, fun _ => 0, 0, 0⟩

theorem sector_host_sizes : sector_host.BlockSizes := by
  intro size bits h
  simp only [sector_host] at h
  split_ifs at h with h1 h2 h3 h4
  all_goals
    obtain rfl := Option.some.inj h
    subst size
    decide

/-- It mounts. -/
theorem sector_mounts : ∃ v root,
    (gas_fill_super linux_dev sector_host sector_env).result = .ok (v, root) ∧
      v.sbi.s_blocksize = 512 ∧ v.sbi.s_nblocks = 4194304 := by
  have hr : ¬Refused sector_host sector_env := by
    simp only [Refused, not_or]
    decide
  have hst := gas_fill_super_started linux_dev hr
  obtain ⟨v, root, h⟩ := hst.served.mpr ⟨fun _ _ => rfl, rfl, rfl, rfl⟩
  have hv := hst.keeps v root h
  exact ⟨v, root, h, by rw [hv]; decide, by rw [hv]; decide⟩

/-- Its files are in range at every offset below 1082199040, and at none from there on. -/
theorem sector_path_inRange : ∃ v root,
    (gas_fill_super linux_dev sector_host sector_env).result = .ok (v, root) ∧
      PathInRange v (block_to_path v (1082199039 / v.sbi.s_blocksize : Nat)) ∧
      ¬PathInRange v (block_to_path v (2147483647 / v.sbi.s_blocksize : Nat)) := by
  obtain ⟨v, root, h, hbs, hnb⟩ := sector_mounts
  refine ⟨v, root, h, ?_, fun hin => ?_⟩
  · have hlt : 1082199039 < 2147483648 := by decide
    exact ((mounted_path_inRange_iff sector_host_sizes h hlt).mpr fun hc => by omega).1
  · have hlt : 2147483647 < 2147483648 := by decide
    exact (mounted_path_inRange_iff sector_host_sizes h hlt).mp ⟨hin, hin.access⟩
      ⟨hbs, by omega, by omega⟩

/-- **Past the end of an indirect block**: the first block the tree has no slot for gets the offset
128 in a block of 128 pointers. -/
theorem sector_overrun : ∃ v root,
    (gas_fill_super linux_dev sector_host sector_env).result = .ok (v, root) ∧
      block_to_path v (1082199040 / v.sbi.s_blocksize : Nat) = [8, 128, 0, 0] ∧
      INDIRCOUNT v = 128 ∧
      ¬PathInRange v (block_to_path v (1082199040 / v.sbi.s_blocksize : Nat)) := by
  obtain ⟨v, root, h, hbs, hnb⟩ := sector_mounts
  obtain ⟨hsize, hlo, hhi⟩ := gas_fill_super_bits sector_host_sizes h
  have hbits : v.s_blocksize_bits = 9 := by
    rw [hbs] at hsize
    generalize v.s_blocksize_bits = bits at hsize hlo hhi
    obtain rfl | rfl | rfl | rfl : bits = 9 ∨ bits = 10 ∨ bits = 11 ∨ bits = 12 := by omega
    all_goals simp_all
  have hN : INDIRCOUNT v = 128 := by rw [INDIRCOUNT, hbits]; norm_num
  have hpath : block_to_path v (1082199040 / v.sbi.s_blocksize : Nat) = [8, 128, 0, 0] := by
    rw [hbs, block_to_path, hN, hnb]
    decide
  refine ⟨v, root, h, hpath, hN, fun hin => ?_⟩
  rw [hpath] at hin
  have hoff := (hin.resolve_left (List.cons_ne_nil 8 _)).2.2 128 (by simp)
  omega

end GasFs
