/-
# The block allocator over runs

`gas_new_block` and `gas_free_block` on a block map of any number of blocks, for every block size
the kernel accepts: `sb_set_blocksize` takes powers of two, so a map block has
`2 ^ (s_blocksize_bits + 3)` bits and both functions split a number in the same way.

`BlockMapOk` is the invariant: the bits that are no data block's are set.  It makes the 32-bit
product in `gas_new_block` harmless, since a clear bit is a data block's (`new_block_spec`).  A run
is any sequence of the two calls (`run_alloc`); `block_map_run` says what the next call does in
every state a run reaches, and that a block is not handed out again before it was given back.

The statement about runs is stronger than one about a single call in two ways.  The invariant has to
survive every sequence of calls, with any arguments of `gas_free_block`: blocks never allocated,
blocks freed twice, numbers of metadata and numbers behind the end.  And it says something about two
moments: a block that was handed out and not freed since is still marked, so it is not handed out
again (`marked_run`).

A call is one step here.  Calls of several processes that interleave inside the search are the
subject of `BlockSearch.lean`.  What the callers do with a block in between is no concern of the
allocator, and contents do not occur here.
-/
import GasFs.Bitmap

namespace GasFs

/-! ## 1. The map by block number

`marked` is the bit of a block.  The map is written at the block and the bit, and both functions
compute these with the same division. -/

/-- The bit of block `b`, for any block size. -/
def Vol.marked (v : Vol) (b : Nat) : Bool :=
  v.bam (b / v.sbi.s_bits_per_block) (b % v.sbi.s_bits_per_block)

/-- A block map as `gas_fill_super` finds it on a volume `mkfs.gas` wrote: it has a bit for each
block, and the bits in front of the data zone and behind the last block are set.  Nothing is said
about the bits of the data zone, so any set of blocks may be in use. -/
structure BlockMapOk (v : Vol) : Prop where
  bits : v.sbi.s_bits_per_block = 2 ^ (v.s_blocksize_bits + 3)
  covers : v.sbi.s_nblocks ≤ v.sbi.s_bam_blocks * v.sbi.s_bits_per_block
  nblocks_lt : v.sbi.s_nblocks < 4294967296
  padded : ∀ b < v.sbi.s_bam_blocks * v.sbi.s_bits_per_block, ¬v.InZone b → v.marked b = true

theorem BlockMapOk.bits_pos {v : Vol} (h : BlockMapOk v) : 0 < v.sbi.s_bits_per_block := by
  rw [h.bits]
  exact Nat.two_pow_pos _

/-! ## 2. The two calls

One lemma for each function, in terms of marks: `new_block_spec` and `free_block_marked`. -/

/-- What a call of `gas_new_block` may do: it takes a free data block, sets its bit and moves the
hint, or it reports that every data block is marked and changes nothing. -/
inductive NewBlock (v : Vol) : Nat × Option Errno × Vol → Prop
  | taken (b : Nat) (hint : Fin v.sbi.s_bam_blocks) (hz : v.InZone b) (hfree : v.marked b = false) :
      NewBlock v (b, none, { v with
        bam := write_bit v.bam (b / v.sbi.s_bits_per_block) (b % v.sbi.s_bits_per_block) true
        s_bam_last := hint })
  | full (hfull : ∀ b, v.InZone b → v.marked b = true) : NewBlock v (0, some .ENOSPC, v)

/-- **`gas_new_block` takes a free data block, or every data block is marked.** The search is over
bits; that they stand for data blocks is the padding. -/
theorem new_block_spec {v : Vol} (h : BlockMapOk v) : NewBlock v (gas_new_block v) := by
  have hpos := h.bits_pos
  unfold gas_new_block
  cases hs : map_search v.bam v.sbi.s_bits_per_block v.s_bam_last v.sbi.s_bam_blocks
      v.s_bam_last with
  | none =>
    refine .full fun b hz => ?_
    have hcov := h.covers
    have hdiv : b / v.sbi.s_bits_per_block < v.sbi.s_bam_blocks :=
      Nat.div_lt_of_lt_mul (by rw [Nat.mul_comm]; exact lt_of_lt_of_le hz.2 hcov)
    exact (map_search_eq_none_iff _ _ _).mp hs _ hdiv _ (Nat.mod_lt _ hpos)
  | some p =>
    obtain ⟨i, bit⟩ := p
    obtain ⟨hbit, hclear⟩ := map_search_some hs
    obtain ⟨hdiv, hmod⟩ := split_block (i := i.val) hbit
    have hfree : v.marked (i * v.sbi.s_bits_per_block + bit) = false := by
      rw [Vol.marked, hdiv, hmod]
      exact hclear
    have hin : i * v.sbi.s_bits_per_block + bit < v.sbi.s_bam_blocks * v.sbi.s_bits_per_block :=
      calc i * v.sbi.s_bits_per_block + bit
        _ < i * v.sbi.s_bits_per_block + v.sbi.s_bits_per_block := Nat.add_lt_add_left hbit _
        _ = (i + 1) * v.sbi.s_bits_per_block := by rw [Nat.add_mul, Nat.one_mul]
        _ ≤ v.sbi.s_bam_blocks * v.sbi.s_bits_per_block := Nat.mul_le_mul_right _ i.isLt
    -- a clear bit is a data block's, so the 32-bit product did not wrap
    have hz : v.InZone (i * v.sbi.s_bits_per_block + bit) := by
      by_contra hn
      rw [h.padded _ hin hn] at hfree
      exact Bool.false_ne_true hfree.symm
    have hlt : i.val * v.sbi.s_bits_per_block < 4294967296 :=
      lt_of_le_of_lt (Nat.le_add_right _ bit) (lt_trans hz.2 h.nblocks_lt)
    have hres := NewBlock.taken _ i hz hfree
    rw [hdiv, hmod] at hres
    dsimp only
    rw [u32_of_lt hlt, Nat.add_comm]
    exact hres

/-- **`gas_free_block` clears the bit of a data block and ignores every other number.** -/
theorem free_block_marked {v : Vol} (h : BlockMapOk v) (b b' : Nat) :
    (gas_free_block v b).marked b' = if b' = b ∧ v.InZone b then false else v.marked b' := by
  have hcov := h.covers
  unfold gas_free_block
  dsimp only
  rw [← h.bits]
  by_cases hz : v.InZone b
  · obtain ⟨hlo, hhi⟩ := hz
    have hdiv : b / v.sbi.s_bits_per_block < v.sbi.s_bam_blocks :=
      Nat.div_lt_of_lt_mul (by rw [Nat.mul_comm]; exact lt_of_lt_of_le hhi hcov)
    rw [if_neg (by omega), if_neg (by omega)]
    simp only [Vol.marked, write_bit_block]
    rw [if_congr (and_iff_left ⟨hlo, hhi⟩) rfl rfl]
  · have hout : b < v.sbi.s_data_block_start ∨ v.sbi.s_nblocks ≤ b := by
      rw [Vol.InZone] at hz
      omega
    rw [if_pos hout, if_neg fun hb => hz hb.2]

/-- The invariant depends on the superblock and the padding bits. -/
theorem BlockMapOk.step {v v' : Vol} (h : BlockMapOk v) (hs : BlockStep v v')
    (hm : ∀ b, ¬v.InZone b → v.marked b = true → v'.marked b = true) : BlockMapOk v' := by
  obtain ⟨bam, hint, words, tick, rfl⟩ := hs
  exact ⟨h.bits, h.covers, h.nblocks_lt, fun b hb hz => hm b hz (h.padded b hb hz)⟩

theorem NewBlock.marked {v : Vol} {r : Nat × Option Errno × Vol} (h : NewBlock v r) {b : Nat}
    (hb : v.marked b = true) : r.2.2.marked b = true := by
  cases h with
  | taken b' hint hz hfree =>
    simp only [Vol.marked, write_bit_block]
    split
    · rfl
    · exact hb
  | full hfull => exact hb

/-- A successful call, read off. -/
theorem NewBlock.of_eq {v v' : Vol} {r : Nat × Option Errno × Vol} {b : Nat} (h : NewBlock v r)
    (he : r = (b, none, v')) : v.InZone b ∧ v.marked b = false ∧
      ∀ b', v'.marked b' = if b' = b then true else v.marked b' := by
  cases h with
  | taken b₀ hint hz hfree =>
    obtain ⟨rfl, -, rfl⟩ : b₀ = b ∧ (none : Option Errno) = none ∧ _ = v' := by simpa using he
    exact ⟨hz, hfree, fun b' => write_bit_block v.bam b' b₀ true⟩
  | full hfull => simp at he

/-! ## 3. Runs

A call of the run is one of the two, with any argument.  The state is the volume. -/

/-- A call of the allocator, with any block number to be freed. -/
inductive AllocCall where
  | new_block
  | free_block (block : Nat)
  deriving DecidableEq, Repr

def AllocCall.run (v : Vol) : AllocCall → Vol
  | .new_block => (gas_new_block v).2.2
  | .free_block block => gas_free_block v block

def run_alloc (v : Vol) (calls : List AllocCall) : Vol := calls.foldl AllocCall.run v

/-- One call keeps the invariant. -/
theorem BlockMapOk.call {v : Vol} (h : BlockMapOk v) (call : AllocCall) : BlockMapOk (call.run v) := by
  cases call with
  | new_block => exact h.step (gas_new_block_blockStep v) fun b _ hb => (new_block_spec h).marked hb
  | free_block block =>
    refine h.step (gas_free_block_blockStep v block) fun b hz hb => ?_
    show (gas_free_block v block).marked b = true
    rw [free_block_marked h, if_neg]
    · exact hb
    · rintro ⟨rfl, hin⟩
      exact hz hin

theorem BlockMapOk.run {v : Vol} (h : BlockMapOk v) (calls : List AllocCall) :
    BlockMapOk (run_alloc v calls) := by
  induction calls generalizing v with
  | nil => exact h
  | cons call calls ih => exact ih (h.call call)

/-- A block stays marked as long as it is not given back.  The induction is on the calls;
`gas_new_block` sets bits only, and `gas_free_block` clears at most the bit of its argument. -/
theorem marked_run {v : Vol} (h : BlockMapOk v) {calls : List AllocCall} {b : Nat}
    (hb : v.marked b = true) (hno : .free_block b ∉ calls) : (run_alloc v calls).marked b = true := by
  induction calls generalizing v with
  | nil => exact hb
  | cons call calls ih =>
    rw [List.mem_cons, not_or] at hno
    refine ih (h.call call) ?_ hno.2
    cases call with
    | new_block => exact (new_block_spec h).marked hb
    | free_block block =>
      show (gas_free_block v block).marked b = true
      rw [free_block_marked h, if_neg]
      · exact hb
      · rintro ⟨rfl, -⟩
        exact hno.1 rfl

/-- **The block allocator hands out each free data block once.**  In every state a run reaches, a
successful `gas_new_block` returns a data block whose bit was clear and sets only that bit; it
returns `-ENOSPC` if and only if every data block is marked; `gas_free_block` clears at most the
bit of its argument, and only if that is a data block's.  A block handed out is not handed out
again before it was freed. -/
theorem block_map_run {v : Vol} (h : BlockMapOk v) (calls : List AllocCall) :
    let w := run_alloc v calls
    (∀ b w', gas_new_block w = (b, none, w') → w.InZone b ∧ w.marked b = false ∧
        (∀ b', w'.marked b' = if b' = b then true else w.marked b') ∧
        ∀ calls', .free_block b ∉ calls' → (gas_new_block (run_alloc w' calls')).1 ≠ b ∨
          (gas_new_block (run_alloc w' calls')).2.1 ≠ none) ∧
      ((gas_new_block w).2.1 = some .ENOSPC ↔ ∀ b, w.InZone b → w.marked b = true) ∧
      ((gas_new_block w).2.1 = none ∨ (gas_new_block w).2.1 = some .ENOSPC) ∧
      ∀ b b', (gas_free_block w b).marked b' = if b' = b ∧ w.InZone b then false else w.marked b' := by
  have hw := h.run calls
  generalize run_alloc v calls = w at hw
  dsimp only
  have hnew := new_block_spec hw
  refine ⟨fun b w' he => ?_, ?_, ?_, free_block_marked hw⟩
  · have hok' : BlockMapOk w' := by
      have hcall := hw.call .new_block
      rw [AllocCall.run, he] at hcall
      exact hcall
    obtain ⟨hz, hfree, hmark⟩ := hnew.of_eq he
    refine ⟨hz, hfree, hmark, fun calls' hno => ?_⟩
    have hkept := marked_run hok' (b := b) (by rw [hmark, if_pos rfl]) hno
    have hnext := new_block_spec (hok'.run calls')
    generalize run_alloc _ calls' = u at hkept hnext
    generalize gas_new_block u = r at hnext
    cases hnext with
    | taken b2 hint2 hz2 hfree2 =>
      refine Or.inl ?_
      rintro rfl
      rw [hkept] at hfree2
      exact Bool.false_ne_true hfree2.symm
    | full hfull2 => exact Or.inr (by simp)
  · generalize gas_new_block w = r at hnew
    cases hnew with
    | taken b hint hz hfree =>
      refine iff_of_false (by simp) fun hall => ?_
      rw [hall b hz] at hfree
      exact Bool.false_ne_true hfree.symm
    | full hfull => exact iff_of_true rfl hfull
  · generalize gas_new_block w = r at hnew
    cases hnew with
    | taken b hint hz hfree => exact Or.inl rfl
    | full hfull => exact Or.inr rfl

/-- A volume with blocks of 512 bytes and two map blocks, whose data zone is `[4097, 4100)`. -/
def two_maps : Vol where
  sbi :=
    { s_magic := MAGIC_NUMBER, s_blocksize := 512, s_bam_blocks := 2, s_iam_blocks := 1
      s_inode_blocks := 4093, s_nblocks := 4100, s_ninodes := 32744, s_inodes_per_block := 8
      s_bits_per_block := 4096, s_dir_entries_per_block := 1, s_inode_list_start := 4
      s_data_block_start := 4097 }
  s_blocksize_bits := 9
  s_bam_last := 0
  s_iam_last := 0
  bam i bit := !(i == 1 && 1 ≤ bit && bit < 4)
  iam _ _ := true
  words _ _ := 0
  env := ⟨fun _ => true, fun _ => true, fun _ _ => 0, fun _ => true, fun _ => 0, 0, 0⟩
  tick := 0

theorem two_maps_ok : BlockMapOk two_maps where
  bits := rfl
  covers := by decide
  nblocks_lt := by decide
  padded b hb hz := by
    have hz' : ¬(4097 ≤ b ∧ b < 4100) := hz
    show (!(b / 4096 == 1 && 1 ≤ b % 4096 && b % 4096 < 4)) = true
    simp only [Bool.not_eq_true', Bool.and_eq_false_iff, beq_eq_false_iff_ne, decide_eq_false_iff_not]
    omega

/-- Two blocks taken and one given back. -/
theorem two_maps_run : ((gas_new_block (run_alloc two_maps
    [.new_block, .new_block, .free_block 4097, .free_block 3])).2.1 = some .ENOSPC ↔
      ∀ b, (run_alloc two_maps [.new_block, .new_block, .free_block 4097, .free_block 3]).InZone b →
        (run_alloc two_maps
          [.new_block, .new_block, .free_block 4097, .free_block 3]).marked b = true) :=
  (block_map_run two_maps_ok [.new_block, .new_block, .free_block 4097, .free_block 3]).2.1

end GasFs
