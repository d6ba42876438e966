/-
# Looking up a path

`get_branch` reads the pointers on the way to a block one by one.  `BranchOf` says what it
finds: the entries of `chain` are the slots named by the prefixes of the path (`ChainOf`), and
the search ended at the data slot, at a null pointer, or at a failed read.  Nothing but the
request counter changes (`Ticked`).

Nobody else runs, so the chain is still as it was read when it is verified: `get_branch` never
answers `-EAGAIN` (`get_branch_spec`), and a lookup alone returns the pointer of the data slot
(`gas_get_block_lookup`).

A chain is compared with the tree entry by entry.  `EntryOf` says that an entry stands for the slot
of a path and holds its pointer, and `ChainOf` that this is so for every prefix;
`get_branch_loop_spec` carries both along the path.

The reads are requests with numbers.  The lookup of a path makes one for each level behind the
first, in order, and stops at the first that fails (`get_branch_reads`), so one can say of a state
which request will fail.

The last section is a frame for `gas_get_block`: whatever it does, in whatever state, it changes the
pointers and one time of its inode, and of the volume the block map, words and the number of
requests.
-/
import GasFs.FreeOrder
import GasFs.Itree.Cut

namespace GasFs

open PtrTree

/-! ## 1. Only the request counter changes

A lookup asks, and changes nothing.  Everything that is read from the state is the same before and
after. -/

/-- The same state after some more requests. -/
def Ticked (c c' : Ctx) : Prop := ∃ t, c' = { c with v := { c.v with tick := t } }

theorem Ticked.refl (c : Ctx) : Ticked c c := ⟨c.v.tick, rfl⟩

theorem Ticked.trans {c c' c'' : Ctx} (h : Ticked c c') (h' : Ticked c' c'') : Ticked c c'' := by
  obtain ⟨_, rfl⟩ := h
  obtain ⟨t, rfl⟩ := h'
  exact ⟨t, rfl⟩

section
variable {c c' : Ctx}

theorem Ticked.val (h : Ticked c c') (q : List Nat) : c'.val q = c.val q := by
  obtain ⟨_, rfl⟩ := h; rfl

theorem Ticked.load (h : Ticked c c') (p : Cell) : c'.load p = c.load p := by
  obtain ⟨t, rfl⟩ := h; exact load_withTick c t p

theorem Ticked.inode (h : Ticked c c') : c'.inode = c.inode := by
  obtain ⟨_, rfl⟩ := h; rfl

theorem Ticked.env (h : Ticked c c') : c'.v.env = c.v.env := by
  obtain ⟨_, rfl⟩ := h; rfl

theorem Ticked.blockStep (h : Ticked c c') : BlockStep c.v c'.v := by
  obtain ⟨t, rfl⟩ := h; exact ⟨_, _, _, t, rfl⟩

theorem Ticked.isCell (h : Ticked c c') {q : List Nat} {p : Cell} :
    IsCell c' q p ↔ IsCell c q p := by
  cases p with
  | nr => exact iff_of_false not_isCell_nr not_isCell_nr
  | idata i => rw [isCell_idata_iff, isCell_idata_iff]
  | blk b j => simp only [isCell_blk_iff, h.val]

theorem Ticked.cut (h : Ticked c c') : Cut (fun _ => False) c c' := by
  obtain ⟨t, rfl⟩ := h
  have h0 := Cut.none c
  exact ⟨⟨_, _, _, t, rfl⟩, InodeStep.refl _, h0.val, h0.words, h0.marks, h0.mono, h0.exact⟩

theorem Ticked.treeOk (h : Ticked c c') (hc : TreeOk c) : TreeOk c' := h.cut.treeOk hc

theorem Ticked.sound (h : Ticked c c') (hc : TreeSound c) : TreeSound c' := by
  obtain ⟨_, rfl⟩ := h
  exact ⟨{ hc.geometry with }, hc.padded, hc.one, hc.zone, hc.used⟩

/-- The block map is not touched. -/
theorem Ticked.free_order (h : Ticked c c') : c'.v.free_order = c.v.free_order := by
  obtain ⟨_, rfl⟩ := h; rfl

end

/-! ## 2. Chains

An array of `Indirect` in the source, filled from its front. -/

/-- The entry of a chain that stands for a slot. -/
def EntryOf (c : Ctx) (q : List Nat) (e : Indirect) : Prop := IsCell c q e.p ∧ e.key = c.val q

/-- The chain of a path: one entry for each prefix. -/
structure ChainOf (c : Ctx) (q : List Nat) (chain : List Indirect) : Prop where
  length : chain.length = q.length
  entry : ∀ l e, chain[l]? = some e → EntryOf c (q.take (l + 1)) e

section
variable {c : Ctx} {q : List Nat} {chain : List Indirect}

theorem ChainOf.ticked {c' : Ctx} (h : ChainOf c q chain) (ht : Ticked c c') :
    ChainOf c' q chain where
  length := h.length
  entry l e hl := by
    obtain ⟨h1, h2⟩ := h.entry l e hl
    exact ⟨ht.isCell.mpr h1, by rw [ht.val, h2]⟩

theorem ChainOf.snoc (h : ChainOf c q chain) {j : Nat} {e : Indirect}
    (he : EntryOf c (q ++ [j]) e) : ChainOf c (q ++ [j]) (chain ++ [e]) where
  length := by simp [h.length]
  entry l e' hl := by
    rw [List.getElem?_append] at hl
    by_cases hlt : l < chain.length
    · rw [if_pos hlt] at hl
      rw [h.length] at hlt
      rw [List.take_append_of_le_length (by omega)]
      exact h.entry l e' hl
    · rw [if_neg hlt] at hl
      have hl0 : l - chain.length = 0 := by
        by_contra hne
        rw [List.getElem?_eq_none (by simp; omega)] at hl
        exact Option.some_ne_none _ hl.symm
      rw [hl0] at hl
      obtain rfl : e = e' := by simpa using hl
      have hlen := h.length
      rw [List.take_of_length_le (by simp; omega)]
      exact he

/-- What was read is still there, so the verification succeeds. -/
theorem ChainOf.verify (h : ChainOf c q chain) : verify_chain c chain = true := by
  refine List.all_eq_true.mpr fun e he => ?_
  obtain ⟨l, hl⟩ := List.getElem?_of_mem he
  obtain ⟨h1, h2⟩ := h.entry l e hl
  rw [beq_iff_eq, h1.load, h2]

theorem ChainOf.dropLast (h : ChainOf c q chain) : ChainOf c q.dropLast chain.dropLast where
  length := by simp [h.length]
  entry l e hl := by
    have hlt : l < chain.length - 1 := by
      have := (List.getElem?_eq_some_iff.mp hl).1
      simpa using this
    rw [List.getElem?_dropLast, if_pos hlt] at hl
    have := h.entry l e hl
    have hlen := h.length
    rwa [List.dropLast_eq_take, List.take_take, min_eq_left (by omega)]

/-- The last entry stands for the path itself. -/
theorem ChainOf.last (h : ChainOf c q chain) (hq : q ≠ []) :
    EntryOf c q (chain.getLastD default) := by
  have hlen := h.length
  have hpos : 0 < q.length := List.length_pos_of_ne_nil hq
  have hget : chain[chain.length - 1]? = some (chain.getLastD default) := by
    rw [List.getLastD_eq_getLast?, ← List.getLast?_eq_getElem?]
    cases hl : chain.getLast? with
    | some e => rfl
    | none =>
      rw [List.getLast?_eq_none_iff] at hl
      rw [hl] at hlen
      simp only [List.length_nil] at hlen
      omega
  have := h.entry _ _ hget
  rwa [List.take_of_length_le (by omega)] at this

end

/-! ## 3. `get_branch`

What it leaves, which requests it makes, and the lookup that `gas_get_block` makes of it. -/

/-- What `get_branch` leaves for the path `o`: the chain of a prefix of the path, and the reason why
it is not longer.  It has at least one entry, since the first pointer is in the inode. -/
structure BranchOf (c : Ctx) (o : List Nat) (r : Branch) : Prop where
  ticked : Ticked c r.c
  pos : r.chain ≠ []
  le : r.chain.length ≤ o.length
  chain : ChainOf c (o.take r.chain.length) r.chain
  outcome :
    (r.isNull = true ∧ r.err = none ∧ r.chain.length = o.length ∧ c.val o ≠ 0) ∨
    (r.isNull = false ∧ r.err = none ∧ c.val (o.take r.chain.length) = 0) ∨
    (r.isNull = false ∧ r.err = some Errno.EIO ∧ r.chain.length < o.length ∧
      c.val (o.take r.chain.length) ≠ 0 ∧ ∃ n, c.v.env.bread n = false)

/-- The last entry read stands for the last slot reached. -/
theorem BranchOf.last {c : Ctx} {o : List Nat} {r : Branch} (h : BranchOf c o r) :
    EntryOf c (o.take r.chain.length) (r.chain.getLastD default) :=
  h.chain.last (List.ne_nil_of_length_pos (h.chain.length ▸ List.length_pos_of_ne_nil h.pos))

/-- The loop goes on from a chain that was read completely; induction on the rest of the path. -/
theorem get_branch_loop_spec : ∀ (offsets pre : List Nat) (c : Ctx) (chain : List Indirect)
    (p : Indirect), pre ≠ [] → ChainOf c pre chain → p.key = c.val pre → c.val pre ≠ 0 →
      BranchOf c (pre ++ offsets) (get_branch_loop c chain p offsets)
  | [], pre, c, chain, p, hpre, hch, _, hne => by
    have hlen := hch.length
    have hpos := List.length_pos_of_ne_nil hpre
    have hne0 : chain ≠ [] := List.ne_nil_of_length_pos (hlen ▸ hpos)
    refine ⟨Ticked.refl c, hne0, ?_, ?_, Or.inl ⟨rfl, rfl, ?_, ?_⟩⟩
    · simp [get_branch_loop, hlen]
    · simpa [get_branch_loop, hlen] using hch
    · simp [get_branch_loop, hlen]
    · simpa using hne
  | o :: offsets, pre, c, chain, p, hpre, hch, hp, hne => by
    have hlen := hch.length
    have hpos := List.length_pos_of_ne_nil hpre
    have ht : Ticked c { c with v := { c.v with tick := c.v.tick + 1 } } := ⟨_, rfl⟩
    have hne0 : chain ≠ [] := List.ne_nil_of_length_pos (hlen ▸ hpos)
    cases hr : c.v.env.bread c.v.tick with
    | false =>
      simp only [get_branch_loop, sb_bread, hr]
      refine ⟨ht, hne0, by simp [hlen], ?_, Or.inr (Or.inr ⟨rfl, rfl, by simp [hlen], ?_, _, hr⟩)⟩
      · simpa [hlen] using hch
      · simpa [hlen] using hne
    | true =>
      obtain ⟨c1, hc1⟩ : ∃ c1 : Ctx, c1 = { c with v := { c.v with tick := c.v.tick + 1 } } :=
        ⟨_, rfl⟩
      have heq : get_branch_loop c chain p (o :: offsets) =
          if verify_chain c1 chain = false then ⟨c1, chain, false, some .EAGAIN⟩
          else if (add_chain c1 (some p.key) (.blk p.key o)).key = 0 then
            ⟨c1, chain ++ [add_chain c1 (some p.key) (.blk p.key o)], false, none⟩
          else get_branch_loop c1 (chain ++ [add_chain c1 (some p.key) (.blk p.key o)])
            (add_chain c1 (some p.key) (.blk p.key o)) offsets := by
        rw [hc1]
        simp only [get_branch_loop, sb_bread, hr]
      rw [← hc1] at ht
      have hch1 := hch.ticked ht
      -- the next entry, in the block of the last one
      have hcell : IsCell c1 (pre ++ [o]) (.blk p.key o) := by
        rw [hp, ← ht.val]
        exact .entry pre o hpre (by rw [ht.val]; exact hne)
      rw [heq, hch1.verify, if_neg (by simp)]
      generalize he : add_chain c1 (some p.key) (.blk p.key o) = e
      have hent : EntryOf c1 (pre ++ [o]) e := by
        rw [← he]; exact ⟨hcell, hcell.load⟩
      have hsn := hch1.snoc hent
      have hback : ∀ r, BranchOf c1 (pre ++ o :: offsets) r → BranchOf c (pre ++ o :: offsets) r := by
        rintro r ⟨i1, i2, i3, i4, i5⟩
        refine ⟨ht.trans i1, i2, i3, ⟨i4.length, fun l e hl => ?_⟩, ?_⟩
        · obtain ⟨h1, h2⟩ := i4.entry l e hl
          exact ⟨ht.isCell.mp h1, by rw [h2, ht.val]⟩
        · simpa only [ht.val, ht.env] using i5
      have htake : (pre ++ o :: offsets).take (chain ++ [e]).length = pre ++ [o] := by
        simp [hlen, List.take_append, List.take_of_length_le]
      refine hback _ ?_
      by_cases hz : e.key = 0
      · rw [if_pos hz]
        refine ⟨Ticked.refl c1, by simp, by simp [hlen], ?_, Or.inr (Or.inl ⟨rfl, rfl, ?_⟩)⟩
        · rw [htake]; exact hsn
        · rw [htake, ← hent.2]; exact hz
      · rw [if_neg hz]
        have ih := get_branch_loop_spec offsets (pre ++ [o]) c1 (chain ++ [e]) e (by simp) hsn hent.2
          (hent.2 ▸ hz)
        rwa [List.append_assoc, List.singleton_append] at ih

/-- **`get_branch` reads the slots of the path** up to the data slot, the first null pointer or the
first failed read.  It never asks for a retry, because nobody changes the tree while it looks. -/
theorem get_branch_spec (c : Ctx) {o : List Nat} (ho : o ≠ []) : BranchOf c o (get_branch c o) := by
  cases o with
  | nil => exact absurd rfl ho
  | cons i offsets =>
    have hent : EntryOf c [i] (add_chain c none (.idata i)) := ⟨.root i, rfl⟩
    have hch : ChainOf c [i] [add_chain c none (.idata i)] := by
      have h0 : ChainOf c [] [] := ⟨rfl, by simp⟩
      exact h0.snoc hent
    simp only [get_branch]
    by_cases hz : (add_chain c none (.idata i)).key = 0
    · rw [if_pos hz]
      exact ⟨Ticked.refl c, by simp, by simp, by simpa using hch, Or.inr (Or.inl ⟨rfl, rfl, hz⟩)⟩
    · rw [if_neg hz]
      exact get_branch_loop_spec offsets [i] c _ _ (by simp) hch rfl hz

/-- Behind the entries there were, each one follows a successful read, and `-EIO` a failed one. -/
theorem get_branch_loop_reads : ∀ (offsets : List Nat) (c : Ctx) (chain : List Indirect)
    (p : Indirect), let r := get_branch_loop c chain p offsets
    chain.length ≤ r.chain.length ∧
      (∀ i, i + chain.length < r.chain.length → c.v.env.bread (c.v.tick + i) = true) ∧
      (r.err = some Errno.EIO →
        c.v.env.bread (c.v.tick + (r.chain.length - chain.length)) = false) := by
  intro offsets
  induction offsets with
  | nil =>
    intro c chain p
    exact ⟨Nat.le_refl _, fun i hi => absurd hi (by simp [get_branch_loop]), by simp [get_branch_loop]⟩
  | cons o offsets ih =>
    intro c chain p
    cases hr : c.v.env.bread c.v.tick with
    | false =>
      simp only [get_branch_loop, sb_bread, hr]
      exact ⟨Nat.le_refl _, fun i hi => absurd hi (by omega), fun _ => by rw [Nat.sub_self]; exact hr⟩
    | true =>
      have hagain : some Errno.EAGAIN ≠ some Errno.EIO := by simp
      simp only [get_branch_loop, sb_bread, hr]
      split_ifs
      · exact ⟨Nat.le_refl _, fun i hi => absurd hi (Nat.not_lt.mpr (Nat.le_add_left _ _)),
          fun he => absurd he hagain⟩
      · refine ⟨by simp, fun i hi => ?_, fun he => absurd he (by simp)⟩
        rw [List.length_append, List.length_singleton] at hi
        obtain rfl : i = 0 := by omega
        exact hr
      · obtain ⟨hle, htrue, hfalse⟩ := ih { c with v := { c.v with tick := c.v.tick + 1 } }
          (chain ++ [add_chain { c with v := { c.v with tick := c.v.tick + 1 } } (some p.key)
            (.blk p.key o)])
          (add_chain { c with v := { c.v with tick := c.v.tick + 1 } } (some p.key) (.blk p.key o))
        generalize get_branch_loop _ _ _ offsets = r at hle htrue hfalse ⊢
        rw [List.length_append, List.length_singleton] at hle htrue hfalse
        dsimp only at htrue hfalse
        refine ⟨by omega, fun i hi => ?_, fun he => ?_⟩
        · cases i with
          | zero => exact hr
          | succ i =>
            have h := htrue i (by omega)
            rwa [Nat.add_assoc, Nat.add_comm 1 i] at h
        · have h := hfalse he
          rwa [show c.v.tick + 1 + (r.chain.length - (chain.length + 1)) =
            c.v.tick + (r.chain.length - chain.length) by omega] at h

/-- The reads of `get_branch`: one for each level behind the first, and `-EIO` stands for a failed
one. -/
theorem get_branch_reads (c : Ctx) (o : List Nat) :
    (∀ i, i + 1 < (get_branch c o).chain.length → c.v.env.bread (c.v.tick + i) = true) ∧
      ((get_branch c o).err = some Errno.EIO →
        c.v.env.bread (c.v.tick + ((get_branch c o).chain.length - 1)) = false) := by
  cases o with
  | nil => exact ⟨fun i hi => absurd hi (by simp [get_branch]), by simp [get_branch]⟩
  | cons i offsets =>
    rw [get_branch]
    split
    · exact ⟨fun i hi => absurd hi (by simp), by simp⟩
    · exact (get_branch_loop_reads offsets c [add_chain c none (.idata i)] _).2

/-- **A lookup without `create` maps the pointer of the data slot**, and fails with `-EIO` only
on a block out of range or a failed read. -/
theorem gas_get_block_lookup (c : Ctx) (block : Nat) :
    Ticked c (gas_get_block c block false).c ∧
      ((gas_get_block c block false).mapped = none ∨
        (block_to_path c.v block ≠ [] ∧ c.val (block_to_path c.v block) ≠ 0 ∧
          (gas_get_block c block false).mapped = some (c.val (block_to_path c.v block)))) := by
  unfold gas_get_block
  generalize block_to_path c.v block = o
  cases o with
  | nil => exact ⟨Ticked.refl c, Or.inl rfl⟩
  | cons i r =>
    have hs := get_branch_spec c (o := i :: r) (by simp)
    simp only [gas_get_block_loop]
    rcases hs.outcome with ⟨hn, -, hl, hne⟩ | ⟨hn, -, -⟩ | ⟨hn, -, -, -, -⟩
    · have hlast := hs.last
      rw [hl, List.take_length] at hlast
      simp only [hn, if_true, Option.getD_some]
      exact ⟨hs.ticked, Or.inr ⟨by simp, hne, by rw [hlast.2]⟩⟩
    · simp only [hn, Bool.false_eq_true, if_false, true_or, if_true, Option.getD_some]
      exact ⟨hs.ticked, trivial⟩
    · simp only [hn, Bool.false_eq_true, if_false, true_or, if_true, Option.getD_some]
      exact ⟨hs.ticked, trivial⟩

/-! ## 4. What `gas_get_block` leaves alone

No assumption on the state. -/

/-- The volume takes a block step, and of the inode only the pointers and a time change. -/
def MapStep (c c' : Ctx) : Prop :=
  BlockStep c.v c'.v ∧
    ∃ blkaddr ctime, c'.inode = { c.inode with blkaddr := blkaddr, i_ctime := ctime }

theorem MapStep.refl (c : Ctx) : MapStep c c := ⟨BlockStep.refl _, _, _, rfl⟩

theorem MapStep.trans {c c' c'' : Ctx} (h : MapStep c c') (h' : MapStep c' c'') :
    MapStep c c'' := by
  obtain ⟨hv, _, _, he⟩ := h
  obtain ⟨hv', blkaddr, ctime, he'⟩ := h'
  exact ⟨hv.trans hv', blkaddr, ctime, by rw [he', he]⟩

theorem MapStep.of_vol {c : Ctx} {v : Vol} (h : BlockStep c.v v) : MapStep c { c with v := v } :=
  ⟨h, _, _, rfl⟩

theorem Ticked.mapStep {c c' : Ctx} (h : Ticked c c') : MapStep c c' := by
  obtain ⟨t, rfl⟩ := h
  exact .of_vol ⟨_, _, _, t, rfl⟩

theorem free_keys_blockStep : ∀ (branch : List Indirect) (v : Vol), BlockStep v (free_keys v branch)
  | [], v => BlockStep.refl v
  | q :: branch, v => (gas_free_block_blockStep v q.key).trans (free_keys_blockStep branch _)

theorem alloc_branch_loop_blockStep : ∀ (offsets : List Nat) (v : Vol) (parent : Int)
    (branch : List Indirect), BlockStep v (alloc_branch_loop v parent branch offsets).1
  | [], v, _, _ => BlockStep.refl v
  | o :: offsets, v, parent, branch => by
    have hnew := gas_new_block_blockStep v
    unfold alloc_branch_loop
    generalize gas_new_block v = r at hnew
    obtain ⟨block, e, v1⟩ := r
    dsimp only at hnew ⊢
    split_ifs
    · exact hnew
    · exact hnew.trans (BlockStep.trans ⟨_, _, _, _, rfl⟩
        (alloc_branch_loop_blockStep offsets _ _ _))

theorem alloc_branch_mapStep (c : Ctx) (offsets : List Nat) (start : Indirect) :
    MapStep c (alloc_branch c offsets start).1 := by
  have hnew := gas_new_block_blockStep c.v
  unfold alloc_branch
  generalize gas_new_block c.v = r at hnew
  obtain ⟨block, e, v⟩ := r
  dsimp only at hnew ⊢
  by_cases h0 : int32 block = 0
  · simp only [h0, if_true]
    exact .of_vol (hnew.trans (free_keys_blockStep _ _))
  · simp only [h0, if_false]
    have hloop := hnew.trans (alloc_branch_loop_blockStep offsets.tail v (int32 block)
      [{ start with key := u32_of_int (int32 block) }])
    split_ifs
    · exact .of_vol hloop
    · exact .of_vol (hloop.trans (free_keys_blockStep _ _))

theorem splice_branch_mapStep (c : Ctx) (chain branch : List Indirect) :
    MapStep c (splice_branch c chain branch).1 := by
  unfold splice_branch
  dsimp only
  split_ifs
  · exact .of_vol (free_keys_blockStep _ _)
  · cases (branch.headD default).p with
    | idata i => exact ⟨BlockStep.refl _, _, _, rfl⟩
    | blk b i => exact ⟨⟨_, _, _, _, rfl⟩, _, _, rfl⟩
    | nr => exact ⟨BlockStep.refl _, _, _, rfl⟩

theorem gas_get_block_loop_mapStep {offsets : List Nat} (ho : offsets ≠ []) (create : Bool) :
    ∀ (fuel : Nat) (c : Ctx) {r : GetBlock},
      gas_get_block_loop c offsets create fuel = some r → MapStep c r.c
  | 0, _, _, h => by simp [gas_get_block_loop] at h
  | fuel + 1, c, r, h => by
    have hread := (get_branch_spec c ho).ticked.mapStep
    rw [gas_get_block_loop] at h
    generalize get_branch c offsets = b at h hread
    split_ifs at h
    · rw [← Option.some.inj h]; exact hread
    · rw [← Option.some.inj h]; exact hread
    · exact hread.trans (gas_get_block_loop_mapStep ho create fuel _ h)
    · have halloc := alloc_branch_mapStep b.c (offsets.drop (b.chain.length - 1))
        (b.chain.getLastD default)
      generalize alloc_branch b.c (offsets.drop (b.chain.length - 1))
        (b.chain.getLastD default) = a at h halloc
      obtain ⟨c1, branch, _ | e⟩ := a
      · have hsplice := splice_branch_mapStep c1 b.chain.dropLast branch
        dsimp only at h halloc
        generalize splice_branch c1 b.chain.dropLast branch = s at h hsplice
        obtain ⟨c2, _ | _⟩ := s
        · exact (hread.trans (halloc.trans hsplice)).trans
            (gas_get_block_loop_mapStep ho create fuel _ h)
        · dsimp only at h
          rw [← Option.some.inj h]
          exact hread.trans (halloc.trans hsplice)
      · dsimp only at h halloc
        rw [← Option.some.inj h]
        exact hread.trans halloc

/-- **Whatever `gas_get_block` does, it touches nothing else**: no assumption is made on the tree,
the map or the reads. -/
theorem gas_get_block_mapStep (c : Ctx) (block : Nat) (create : Bool) :
    MapStep c (gas_get_block c block create).c := by
  unfold gas_get_block
  split
  · exact MapStep.refl c
  · rename_i ho
    cases h : gas_get_block_loop c (block_to_path c.v block) create 1 with
    | none => exact MapStep.refl c
    | some r => exact gas_get_block_loop_mapStep ho create 1 c h

theorem block_write_begin_mapStep (c : Ctx) (pos len : Nat) (uptodate : Bool) :
    MapStep c (__block_write_begin c pos len uptodate).1 := by
  have hget := gas_get_block_mapStep c (pos / PAGE_CACHE_SIZE) true
  unfold __block_write_begin sb_bread
  dsimp only
  split_ifs
  · exact hget
  · exact hget
  · cases (gas_get_block c (pos / PAGE_CACHE_SIZE) true).c.v.env.bread _ <;>
      exact hget.trans (Ticked.mapStep ⟨_, rfl⟩)

end GasFs
