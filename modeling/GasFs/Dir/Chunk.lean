/-
# What preparing a chunk asks for

Before a record is changed, `gas_dir_prepare_chunk` looks up the block of its page, with `create`.
Whether that succeeds is decided by three things in front of the call: the page has a block number,
the indirect blocks on the path can be read, and there is a free block for each null slot of the path.
`ChunkReady` says so, and `gas_get_block_chunk` that nothing else counts.

A call of the VFS prepares more than one chunk, and the condition of the second is to be said of the
state before the first.  So the condition is told for a state in which the slots of one path were
filled in the meantime, `free` blocks are left and the next request is number `tick`; and
`ChunkAsked` tells what the first one leaves of each.  Requests are counted by `requests`: those on a
path are made in order, and the first failure ends them.

What the theorem excludes is as important as what it says: the number of the free blocks counts and
not which ones they are, reads count only on the path, and nothing depends on the other inodes.  So
the condition on a call of `gas_rename`, which prepares three chunks, can be computed from the state
before the call.
-/
import GasFs.FileMap

namespace GasFs

open PtrTree

/-! ## 1. Requests in a row

Requests are made one after the other up to the first failure; later ones are then not made at
all. -/

/-- How many requests are made when `n` are to be made from number `tick` on, up to the first one
that fails.  A request that fails is made, so the number is at most one more than that of those
met. -/
def requests (ok : Nat → Bool) : Nat → Nat → Nat
  | 0, _ => 0
  | n + 1, tick => if ok tick then requests ok n (tick + 1) + 1 else 1

section Requests

variable {ok : Nat → Bool} {n k tick : Nat}

theorem requests_of_all (h : ∀ i < n, ok (tick + i) = true) : requests ok n tick = n := by
  induction n generalizing tick with
  | zero => rfl
  | succ n ih =>
    have hfirst : ok tick = true := h 0 n.succ_pos
    rw [requests, if_pos hfirst, ih fun i hi => ?_]
    rw [Nat.add_assoc, Nat.add_comm 1 i]
    exact h (i + 1) (Nat.succ_lt_succ hi)

theorem requests_of_fail (hk : k < n) (h : ∀ i < k, ok (tick + i) = true)
    (hfail : ok (tick + k) = false) : requests ok n tick = k + 1 := by
  induction k generalizing n tick with
  | zero =>
    obtain ⟨n, rfl⟩ := Nat.exists_eq_succ_of_ne_zero (Nat.ne_of_gt hk)
    rw [Nat.add_zero] at hfail
    rw [requests, if_neg (by rw [hfail]; exact Bool.false_ne_true)]
  | succ k ih =>
    obtain ⟨n, rfl⟩ := Nat.exists_eq_succ_of_ne_zero (Nat.ne_of_gt (Nat.zero_lt_of_lt hk))
    have hnext : ∀ i, tick + 1 + i = tick + (i + 1) := fun i => by rw [Nat.add_assoc, Nat.add_comm 1 i]
    have hfirst : ok tick = true := h 0 k.succ_pos
    have hrest : ∀ i < k, ok (tick + 1 + i) = true := fun i hi => by
      rw [hnext]
      exact h (i + 1) (Nat.succ_lt_succ hi)
    rw [requests, if_pos hfirst, ih (Nat.lt_of_succ_lt_succ hk) hrest (by rw [hnext]; exact hfail)]

end Requests

/-! ## 2. The condition

In terms of the slots of a path, the answers of the environment, and the number of free blocks. -/

/-- The null slots of the path `o` that do not lie on the path `filled`.  A slot lies on the path
`filled` if it is one of its prefixes, and it was set with it. -/
def Ctx.lacking (c : Ctx) (o filled : List Nat) : Nat :=
  (List.range o.length).countP fun l =>
    c.val (o.take (l + 1)) == 0 && !(o.take (l + 1)).isPrefixOf filled

/-- The indirect blocks that are read on the way down the path: one behind each slot that is set,
but not behind the last slot.  A slot that was filled in the meantime has a block behind it, which
is read like any other. -/
def Ctx.path_reads (c : Ctx) (o filled : List Nat) : Nat :=
  min (o.length - 1) (o.length - c.lacking o filled)

/-- **The chunk of a page can be prepared**, once the slots of `filled` are set, with `free` blocks
left and `tick` the next request.  The free blocks are a number, because the allocator finds one as
long as there is one. -/
structure Ctx.ChunkReady (c : Ctx) (page : Nat) (filled : List Nat) (free tick : Nat) : Prop where
  range : page < c.v.sbi.s_nblocks
  reads : ∀ i < c.path_reads (block_to_path c.v page) filled, c.v.env.bread (tick + i) = true
  room : c.lacking (block_to_path c.v page) filled ≤ free

/-- The requests made for it, with success or not.  The next chunk is asked for behind them. -/
def Ctx.chunk_requests (c : Ctx) (page : Nat) (filled : List Nat) (tick : Nat) : Nat :=
  requests c.v.env.bread (c.path_reads (block_to_path c.v page) filled) tick

/-- With no path filled the slots lacking are the null ones. -/
theorem lacking_nil (c : Ctx) (o : List Nat) : c.lacking o [] = c.missing o := by
  refine List.countP_congr fun l hl => ?_
  have hne : o.take (l + 1) ≠ [] := List.ne_nil_of_length_pos (by
    have := List.mem_range.mp hl
    rw [List.length_take]
    omega)
  obtain ⟨i, r, he⟩ := List.exists_cons_of_ne_nil hne
  rw [he]
  simp [List.isPrefixOf]

/-- The slots down to one that is set do not lack.  A slot with a block has a path of blocks above
it. -/
theorem missing_le_of_set {c : Ctx} {o : List Nat} {m : Nat} (hm : m ≤ o.length)
    (hne : c.val (o.take m) ≠ 0) : c.missing o + m ≤ o.length := by
  have hnull : ∀ l ∈ List.range o.length,
      (c.val (o.take (l + 1)) == 0) = true → decide (m + 1 ≤ l + 1) = true := by
    intro l hl hz
    have hlt := List.mem_range.mp hl
    rw [beq_iff_eq] at hz
    rw [decide_eq_true_iff]
    by_contra hle
    refine hne (val_null_below (List.ne_nil_of_length_pos ?_) hz (List.take_prefix_take_left (by omega)))
    rw [List.length_take]
    omega
  have hle := List.countP_mono_left hnull
  rw [countP_range_from, max_eq_left (by omega)] at hle
  rw [Ctx.missing]
  omega

/-! ## 3. `get_branch`

The only part of the call that makes requests. -/

/-- The requests of the loop: one for each level gone down, and one more if that fails. -/
theorem get_branch_loop_tick (offsets : List Nat) : ∀ (c : Ctx) (chain : List Indirect) (p : Indirect),
    (get_branch_loop c chain p offsets).err ≠ some .EAGAIN →
      (get_branch_loop c chain p offsets).c.v.tick + chain.length =
        c.v.tick + (get_branch_loop c chain p offsets).chain.length +
          if (get_branch_loop c chain p offsets).err = some Errno.EIO then 1 else 0 := by
  induction offsets with
  | nil => exact fun c chain p _ => rfl
  | cons o offsets ih =>
    intro c chain p hne
    cases hr : c.v.env.bread c.v.tick with
    | false =>
      simp only [get_branch_loop, sb_bread, hr, if_true]
      omega
    | true =>
      obtain ⟨c1, hc1⟩ : ∃ c1 : Ctx, c1 = { c with v := { c.v with tick := c.v.tick + 1 } } := ⟨_, rfl⟩
      obtain ⟨q, hq⟩ : ∃ q, q = add_chain c1 (some p.key) (.blk p.key o) := ⟨_, rfl⟩
      have hstep : get_branch_loop c chain p (o :: offsets) =
          if verify_chain c1 chain = false then ⟨c1, chain, false, some .EAGAIN⟩
          else if q.key = 0 then ⟨c1, chain ++ [q], false, none⟩
          else get_branch_loop c1 (chain ++ [q]) q offsets := by
        rw [hq, hc1]
        simp only [get_branch_loop, sb_bread, hr]
      have htick : c1.v.tick = c.v.tick + 1 := by rw [hc1]
      rw [hstep] at hne ⊢
      by_cases hv : verify_chain c1 chain = false
      · rw [if_pos hv] at hne
        exact absurd rfl hne
      · rw [if_neg hv] at hne ⊢
        by_cases hz : q.key = 0
        · rw [if_pos hz, htick, List.length_append, List.length_singleton, if_neg (by simp)]
          omega
        · rw [if_neg hz] at hne ⊢
          have h := ih c1 (chain ++ [q]) q hne
          rw [List.length_append, List.length_singleton] at h
          omega

theorem get_branch_tick (c : Ctx) {o : List Nat} (ho : o ≠ []) :
    (get_branch c o).c.v.tick + 1 = c.v.tick + (get_branch c o).chain.length +
      if (get_branch c o).err = some Errno.EIO then 1 else 0 := by
  have hagain : (get_branch c o).err ≠ some .EAGAIN := by
    rcases (get_branch_spec c ho).outcome with ⟨-, he, -⟩ | ⟨-, he, -⟩ | ⟨-, he, -⟩ <;> simp [he]
  obtain ⟨i, offsets, rfl⟩ := List.exists_cons_of_ne_nil ho
  rw [get_branch] at hagain ⊢
  generalize add_chain c none (.idata i) = p at hagain ⊢
  by_cases hz : p.key = 0
  · rw [if_pos hz, if_neg (by simp)]
    rfl
  · rw [if_neg hz] at hagain ⊢
    exact get_branch_loop_tick offsets c _ _ hagain

/-- **`get_branch` makes the reads of the path** and fails with the first of them that fails.  A
null pointer ends the path, and with it the reads. -/
theorem get_branch_requests (c : Ctx) {o : List Nat} (ho : o ≠ []) :
    (get_branch c o).c.v.tick =
        c.v.tick + requests c.v.env.bread (c.path_reads o []) c.v.tick ∧
      ((get_branch c o).err = none ↔ ∀ i < c.path_reads o [], c.v.env.bread (c.v.tick + i) = true) := by
  have hB := get_branch_spec c ho
  obtain ⟨hread, hfail⟩ := get_branch_reads c o
  have htick := get_branch_tick c ho
  have hpos := List.length_pos_of_ne_nil hB.pos
  have hle := hB.le
  rw [Ctx.path_reads, lacking_nil]
  -- how far the chain reaches is how many slots are set
  rcases hB.outcome with ⟨-, he, hl, hne⟩ | ⟨-, he, hz⟩ | ⟨-, he, hl, hne, -⟩
  · have hmiss := missing_of_mapped hne
    have hreads : min (o.length - 1) (o.length - c.missing o) = (get_branch c o).chain.length - 1 := by
      omega
    have hall : ∀ i < (get_branch c o).chain.length - 1, c.v.env.bread (c.v.tick + i) = true :=
      fun i hi => hread i (by omega)
    rw [hreads, requests_of_all hall]
    rw [he, if_neg (by simp)] at htick
    rw [he]
    exact ⟨by omega, iff_of_true rfl hall⟩
  · have hmiss := missing_eq hpos hle hz hB.last.1
    have hreads : min (o.length - 1) (o.length - c.missing o) = (get_branch c o).chain.length - 1 := by
      omega
    have hall : ∀ i < (get_branch c o).chain.length - 1, c.v.env.bread (c.v.tick + i) = true :=
      fun i hi => hread i (by omega)
    rw [hreads, requests_of_all hall]
    rw [he, if_neg (by simp)] at htick
    rw [he]
    exact ⟨by omega, iff_of_true rfl hall⟩
  · have hmiss := missing_le_of_set hle hne
    have hlt : (get_branch c o).chain.length - 1 < min (o.length - 1) (o.length - c.missing o) := by
      omega
    have hbad := hfail he
    rw [requests_of_fail hlt (fun i hi => hread i (by omega)) hbad]
    rw [he, if_pos rfl] at htick
    rw [he]
    refine ⟨by omega, iff_of_false (by simp) fun hall => ?_⟩
    rw [hall _ hlt] at hbad
    exact Bool.false_ne_true hbad.symm

/-! ## 4. The rest of the call makes no request

The allocator works on buffers that are pinned. -/

theorem gas_new_block_tick (v : Vol) : (gas_new_block v).2.2.tick = v.tick := by
  unfold gas_new_block
  cases map_search v.bam v.sbi.s_bits_per_block v.s_bam_last v.sbi.s_bam_blocks v.s_bam_last <;> rfl

theorem gas_free_block_tick (v : Vol) (b : Nat) : (gas_free_block v b).tick = v.tick := by
  unfold gas_free_block
  dsimp only
  split_ifs <;> rfl

theorem free_keys_tick (branch : List Indirect) : ∀ v, (free_keys v branch).tick = v.tick := by
  induction branch with
  | nil => exact fun v => rfl
  | cons q branch ih => exact fun v => (ih _).trans (gas_free_block_tick v q.key)

theorem alloc_branch_loop_tick (offsets : List Nat) : ∀ (v : Vol) (parent : Int)
    (branch : List Indirect), (alloc_branch_loop v parent branch offsets).1.tick = v.tick := by
  induction offsets with
  | nil => exact fun v parent branch => rfl
  | cons o offsets ih =>
    intro v parent branch
    have hnew := gas_new_block_tick v
    rw [alloc_branch_loop]
    generalize gas_new_block v = r at hnew
    obtain ⟨block, e, v'⟩ := r
    dsimp only at hnew ⊢
    split_ifs
    · exact hnew
    · exact (ih _ _ _).trans hnew

theorem alloc_branch_tick (c : Ctx) (offsets : List Nat) (start : Indirect) :
    (alloc_branch c offsets start).1.v.tick = c.v.tick := by
  have hnew := gas_new_block_tick c.v
  rw [alloc_branch]
  generalize gas_new_block c.v = r at hnew
  obtain ⟨block, e, v⟩ := r
  dsimp only at hnew ⊢
  by_cases h0 : int32 block = 0
  · simp only [h0, if_true]
    exact (free_keys_tick _ _).trans hnew
  · simp only [h0, if_false]
    have hloop := (alloc_branch_loop_tick offsets.tail v (int32 block)
      [{ start with key := u32_of_int (int32 block) }]).trans hnew
    split_ifs
    · exact hloop
    · exact (free_keys_tick _ _).trans hloop

theorem splice_branch_tick (c : Ctx) (chain branch : List Indirect) :
    (splice_branch c chain branch).1.v.tick = c.v.tick := by
  rw [splice_branch]
  dsimp only
  split_ifs
  · exact free_keys_tick branch c.v
  · cases (branch.headD default).p <;> rfl

/-- One round that ends makes the requests of `get_branch`.  The allocator and the graft come behind
the reads, and make none. -/
theorem gas_get_block_loop_tick {c : Ctx} {o : List Nat} (ho : o ≠ []) {r : GetBlock}
    (h : gas_get_block_loop c o true 1 = some r) : r.c.v.tick = (get_branch c o).c.v.tick := by
  have hagain : (get_branch c o).err ≠ some .EAGAIN := by
    rcases (get_branch_spec c ho).outcome with ⟨-, he, -⟩ | ⟨-, he, -⟩ | ⟨-, he, -⟩ <;> simp [he]
  simp only [gas_get_block_loop] at h
  generalize get_branch c o = b at h hagain ⊢
  rw [if_neg hagain] at h
  by_cases hnull : b.isNull = true
  · rw [if_pos hnull] at h
    rw [← Option.some.inj h]
  · rw [if_neg hnull] at h
    by_cases hio : true = false ∨ b.err = some Errno.EIO
    · rw [if_pos hio] at h
      rw [← Option.some.inj h]
    · rw [if_neg hio] at h
      have halloc := alloc_branch_tick b.c (o.drop (b.chain.length - 1)) (b.chain.getLastD default)
      generalize alloc_branch b.c (o.drop (b.chain.length - 1)) (b.chain.getLastD default) = a
        at h halloc
      obtain ⟨c1, branch, _ | e⟩ := a
      · dsimp only at h halloc
        have hsplice := splice_branch_tick c1 b.chain.dropLast branch
        generalize splice_branch c1 b.chain.dropLast branch = s at h hsplice
        obtain ⟨c2, _ | _⟩ := s
        · simp at h
        · rw [← Option.some.inj h]
          exact hsplice.trans halloc
      · dsimp only at h
        rw [← Option.some.inj h]
        exact halloc

/-- What a call with `create` comes to: a mapped block, a hole that is filled or for which the
blocks do not suffice, or a read that fails.  Nobody else changes the map meanwhile, so there is one
round. -/
theorem gas_get_block_cases {c : Ctx} (hc : TreeOk c) {page : Nat} (hlt : page < c.v.sbi.s_nblocks) :
    let o := block_to_path c.v page
    let r := gas_get_block c page true
    r.c.v.tick = (get_branch c o).c.v.tick ∧
      (r.err = none ∧ Ticked c r.c ∧ c.val o ≠ 0 ∧ (get_branch c o).err = none ∨
        Filled c o r ∧ (get_branch c o).err = none ∨
        r.err = some Errno.EIO ∧ Ticked c r.c ∧ (get_branch c o).err = some Errno.EIO) := by
  have ho := block_path_isLeaf hc hlt
  have hloop : ∀ r, gas_get_block_loop c (block_to_path c.v page) true 1 = some r →
      gas_get_block c page true = r := by
    intro r hr
    unfold gas_get_block
    generalize block_to_path c.v page = o at hr ho
    cases o with
    | nil => exact absurd rfl ho.1.ne_nil
    | cons i o =>
      dsimp only
      rw [hr]
      rfl
  dsimp only
  generalize block_to_path c.v page = o at ho hloop
  have hB := get_branch_spec c ho.1.ne_nil
  obtain ⟨r, hr, hcase⟩ : ∃ r, gas_get_block_loop c o true 1 = some r ∧
      (r.err = none ∧ Ticked c r.c ∧ c.val o ≠ 0 ∧ (get_branch c o).err = none ∨
        Filled c o r ∧ (get_branch c o).err = none ∨
        r.err = some Errno.EIO ∧ Ticked c r.c ∧ (get_branch c o).err = some Errno.EIO) := by
    rcases hB.outcome with ⟨hn, he, -, hne⟩ | ⟨-, he, hz⟩ | ⟨hn, he, -⟩
    · refine ⟨_, by rw [gas_get_block_loop, if_pos hn], Or.inl ⟨rfl, hB.ticked, hne, he⟩⟩
    · have hz' : c.val o = 0 := by
        have hpos := List.length_pos_of_ne_nil hB.pos
        have hle := hB.le
        refine val_null_below (List.ne_nil_of_length_pos ?_) hz ( List.take_prefix _ _)
        rw [List.length_take]
        omega
      obtain ⟨r, hr, hf⟩ := gas_get_block_loop_hole hc.sound ho he hz'
        (hc.geometry.lowFirst hc.padded _)
      exact ⟨r, hr, Or.inr (Or.inl ⟨hf, he⟩)⟩
    · refine ⟨⟨(get_branch c o).c, (get_branch c o).err, none, false⟩, ?_,
        Or.inr (Or.inr ⟨he, hB.ticked, he⟩)⟩
      dsimp only [gas_get_block_loop]
      rw [if_neg (by rw [hn]; exact Bool.false_ne_true), if_pos (Or.inr he)]
  rw [hloop r hr]
  exact ⟨gas_get_block_loop_tick ho.1.ne_nil hr, hcase⟩

/-! ## 5. The chunk

The condition is necessary and sufficient, and what the call leaves is known in both cases. -/

/-- The blocks a graft took are off the free ones.  It took as many as the path lacked. -/
theorem Graft.card {c c' : Ctx} {o : List Nat} {m : Nat} {nb : List Nat} (h : Graft o m nb c c') :
    c'.v.free.card + nb.length = c.v.free.card := by
  have hsub : nb.toFinset ⊆ c.v.free := fun b hb =>
    mem_free.mpr (h.fresh b (List.mem_toFinset.mp hb))
  have hfree : c'.v.free = c.v.free \ nb.toFinset := by
    ext b
    have hmark : c'.v.inUse b = false ↔ b ∉ nb ∧ c.v.inUse b = false := by
      rw [← Bool.not_eq_true, h.marks, not_or, Bool.not_eq_true]
    rw [Finset.mem_sdiff, mem_free, mem_free, List.mem_toFinset, h.vol.inZone, hmark]
    tauto
  rw [hfree, ← List.toFinset_card_of_nodup h.nodup]
  exact Finset.card_sdiff_add_card_eq_card hsub

/-- Nothing that is in use has changed, so no block was given out. -/
theorem Same.free {c c' : Ctx} (h : Same c c') : c'.v.free = c.v.free := by
  ext b
  rw [mem_free, mem_free, h.marks, h.vol.inZone]

/-- What asking for the chunk of a page has done: if the call went well, the null slots of the path
were filled from the free blocks; otherwise the map is as it was.  The blocks are told by their
number, and the slots one by one. -/
structure ChunkAsked (c c' : Ctx) (page : Nat) (ok : Bool) : Prop where
  step : OwnStep c c'
  null : ∀ q, shape.IsPath q →
    (c'.val q = 0 ↔ c.val q = 0 ∧ ¬(ok = true ∧ q <+: block_to_path c.v page))
  free : c'.v.free.card + (if ok = true then c.missing (block_to_path c.v page) else 0) =
    c.v.free.card
  tick : c'.v.tick = c.v.tick + c.chunk_requests page [] c.v.tick

/-- **A chunk is prepared exactly when it is ready.** The three conditions are tested by the source
in this order: the number of the block, the reads, the free blocks. -/
theorem gas_get_block_chunk {c : Ctx} (hc : TreeOk c) (page : Nat) :
    ((gas_get_block c page true).err = none ↔ c.ChunkReady page [] c.v.free.card c.v.tick) ∧
      ChunkAsked c (gas_get_block c page true).c page (gas_get_block c page true).err.isNone := by
  have hstep := gas_get_block_ownStep hc page true
  rcases Nat.lt_or_ge page c.v.sbi.s_nblocks with hlt | hge
  · have ho := block_path_isLeaf hc hlt
    obtain ⟨htick, hcase⟩ := gas_get_block_cases hc hlt
    obtain ⟨hreq, hread⟩ := get_branch_requests c ho.1.ne_nil
    rw [hreq] at htick
    -- the page is in range, so the reads and the room decide
    have hready : c.ChunkReady page [] c.v.free.card c.v.tick ↔
        (get_branch c (block_to_path c.v page)).err = none ∧
          c.missing (block_to_path c.v page) ≤ c.v.free.card := by
      rw [hread, ← lacking_nil]
      exact ⟨fun h => ⟨h.reads, h.room⟩, fun h => ⟨hlt, h.1, h.2⟩⟩
    have hfailed : Same c (gas_get_block c page true).c → (gas_get_block c page true).err ≠ none →
        ChunkAsked c (gas_get_block c page true).c page (gas_get_block c page true).err.isNone := by
      intro hs he
      have hok : (gas_get_block c page true).err.isNone = false := by
        rw [← Bool.not_eq_true, Option.isNone_iff_eq_none]
        exact he
      rw [hok]
      refine ⟨hstep, fun q hq => ?_, ?_, htick⟩
      · rw [hs.val hc hq]
        simp
      · rw [hs.free]
        rfl
    rcases hcase with ⟨he, ht, hne, hb⟩ | ⟨hf, hb⟩ | ⟨he, ht, hb⟩
    · have hmiss := missing_of_mapped hne
      refine ⟨iff_of_true he (hready.mpr ⟨hb, by rw [hmiss]; exact Nat.zero_le _⟩), ?_⟩
      rw [he]
      refine ⟨hstep, fun q hq => ?_, ?_, htick⟩
      · -- the whole path was set before
        rw [ht.val]
        exact ⟨fun hq0 => ⟨hq0, fun hp => hne (val_null_below hq.ne_nil hq0 hp.2)⟩, fun h => h.1⟩
      · rw [ht.same.free, hmiss]
        rfl
    · generalize gas_get_block c page true = r at hf hstep htick hfailed
      cases hf with
      | full c' hs hfew =>
        refine ⟨iff_of_false (by simp) fun h => ?_, hfailed hs (by simp)⟩
        exact Nat.not_le_of_lt hfew (hready.mp h).2
      | grafted c' m nb hg hlen hle hq =>
        refine ⟨iff_of_true rfl (hready.mpr ⟨hb, hle⟩), hstep, fun q hq => ?_, ?_, htick⟩
        · -- the data slot is set now, so the path is; the other slots are as they were
          by_cases hp : q <+: block_to_path c.v page
          · have hend := hg.val_path_ne_zero hc.sound ho.1
            exact iff_of_false (fun h0 => hend (val_null_below hq.ne_nil h0 hp)) fun h => h.2 ⟨rfl, hp⟩
          · rw [hg.val q hq, if_neg fun h => hp h.1]
            exact ⟨fun h0 => ⟨h0, fun h => hp h.2⟩, fun h => h.1⟩
        · rw [Option.isNone_none, if_pos rfl, ← hlen]
          exact hg.card
    · refine ⟨iff_of_false (by simp [he]) fun h => ?_, hfailed ht.same (by simp [he])⟩
      have hb' := (hready.mp h).1
      rw [hb] at hb'
      simp at hb'
  · have hnil := (block_to_path_eq_nil_iff hc.geometry.toGeometry).mpr hge
    have hget : gas_get_block c page true = ⟨c, some Errno.EIO, none, false⟩ := by
      unfold gas_get_block
      rw [hnil]
    rw [hget]
    refine ⟨iff_of_false (by simp) fun h => Nat.not_lt_of_le hge h.range, ?_⟩
    refine ⟨OwnStep.refl hc, fun q _ => by simp, rfl, ?_⟩
    rw [Ctx.chunk_requests, hnil]
    rfl

end GasFs
