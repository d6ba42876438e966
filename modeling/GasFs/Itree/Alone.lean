/-
# A call that runs alone

`gas_get_block` of `Itree.lean` is one function; `call_step` of `Itree/Call.lean` takes it apart at
its locks.  When no other call takes a step in between, the steps lead where the function leads
(`gas_get_block_alone`): loop by loop, the search of the block map, `alloc_branch`, the freeing of a
branch and `get_branch` are runs of steps.

This is what ties the two models of the function to each other.  `Itree.lean` is the translation
that can be compared with the source line by line, and the single-threaded results are about it.
`call_step` is the form in which calls can interleave; were it to differ from the source somewhere,
a call that runs alone would show it.

Nothing here depends on the state being sound, except that the loop of `gas_get_block` ends: that a
call never retries when it runs alone is a fact about sound trees.  The order of the lemmas follows
the calls, from `gas_new_block` up to `gas_get_block`, and each says that the function's loop is a
run of steps from the point where it begins to the point where it ends.
-/
import GasFs.Itree.Race
import Mathlib.Logic.Relation

namespace GasFs

open PtrTree Relation

/-- Steps of one call without steps of others in between. -/
def Alone (block : Nat) : Ctx × Pc → Ctx × Pc → Prop :=
  ReflTransGen fun s s' => call_step block s.1 s.2 = s'

/-- What a call returns. -/
def GetBlock.result (r : GetBlock) : Except Errno Nat :=
  match r.err with
  | none => .ok (r.mapped.getD 0)
  | some e => .error e

variable {block : Nat}

theorem Alone.step {c : Ctx} {pc : Pc} {s : Ctx × Pc}
    (h : Alone block (call_step block c pc) s) : Alone block (c, pc) s :=
  .head rfl h

theorem Alone.trans {s s' s'' : Ctx × Pc} (h : Alone block s s') (h' : Alone block s' s'') :
    Alone block s s'' := ReflTransGen.trans h h'

/-! ## 1. The block map

The rounds of the search are steps of their own, since the lock is taken in each round anew. -/

/-- The rounds of `gas_new_block` from the map block `i`; after `t` rounds it stands `t` blocks
behind the hint.  A full map block leads to the next one, a clear bit to the end of the search. -/
theorem map_search_alone (a : AllocBranch) (c : Ctx) :
    ∀ (fuel t : Nat) (i : Fin c.v.sbi.s_bam_blocks), t < c.v.sbi.s_bam_blocks →
      c.v.sbi.s_bam_blocks ≤ t + fuel →
      i.val = (c.v.s_bam_last.val + t) % c.v.sbi.s_bam_blocks →
      Alone block (c, .alloc a (.look i))
        (match map_search c.v.bam c.v.sbi.s_bits_per_block c.v.s_bam_last fuel i with
        | some (j, bit) => ({ c with v := { c.v with bam := write_bit c.v.bam j bit true } },
            .alloc a (.took j (bit + u32 (j * c.v.sbi.s_bits_per_block))))
        | none => (c, .undo a.branch false))
  | 0, t, i, ht, hf, _ => absurd hf (by omega)
  | fuel + 1, t, i, ht, hf, hi => by
    have hnext := next_map_eq_last_iff ht hi
    refine .step ?_
    rw [map_search]
    simp only [call_step]
    by_cases hbit : find_first_zero_bit (c.v.bam i) c.v.sbi.s_bits_per_block <
        c.v.sbi.s_bits_per_block
    · rw [if_pos hbit, if_pos hbit]
      exact .refl
    · rw [if_neg hbit, if_neg hbit]
      refine .step ?_
      have hval : (i.val + 1) % c.v.sbi.s_bam_blocks = (next_map i).val := rfl
      simp only [call_step, hval]
      by_cases hlast : next_map i = c.v.s_bam_last
      · rw [if_pos hlast, if_pos (congrArg Fin.val hlast)]
        exact .refl
      · rw [if_neg hlast, if_neg fun he => hlast (Fin.ext he)]
        have htn : t + 1 ≠ c.v.sbi.s_bam_blocks := fun h => hlast (hnext.mpr h)
        refine map_search_alone a c fuel (t + 1) (next_map i) (by omega) (by omega) ?_
        simp only [next_map, hi, Nat.mod_add_mod]
        rw [Nat.add_assoc]

/-- `gas_new_block`, and what `alloc_branch` does with the number. -/
theorem gas_new_block_alone (a : AllocBranch) (c : Ctx) :
    Alone block (c, .alloc a .enter)
      (a.got { c with v := (gas_new_block c.v).2.2 } (gas_new_block c.v).1) := by
  refine .step ?_
  have h : Alone block _ _ := map_search_alone a c c.v.sbi.s_bam_blocks 0 c.v.s_bam_last
    c.v.s_bam_last.pos (by omega) (by rw [Nat.add_zero, Nat.mod_eq_of_lt c.v.s_bam_last.isLt])
  refine h.trans ?_
  unfold gas_new_block
  cases map_search c.v.bam c.v.sbi.s_bits_per_block c.v.s_bam_last c.v.sbi.s_bam_blocks
      c.v.s_bam_last with
  | none => exact .refl
  | some p =>
    obtain ⟨j, bit⟩ := p
    refine .step ?_
    have hj : (⟨j.val % c.v.sbi.s_bam_blocks, Nat.mod_lt _ c.v.s_bam_last.pos⟩ :
        Fin c.v.sbi.s_bam_blocks) = j := Fin.ext (Nat.mod_eq_of_lt j.isLt)
    simp only [call_step, Vol.hint, hj]
    exact .refl

/-! ## 2. `alloc_branch` and `splice_branch`

A failure leads through the steps that give blocks back, one by one. -/

/-- Giving the blocks of a branch back. -/
theorem free_keys_alone (again : Bool) : ∀ (branch : List Indirect) (c : Ctx),
    Alone block (c, .undo branch again) ({ c with v := free_keys c.v branch }, .undo [] again)
  | [], _ => .refl
  | _ :: branch, _ => .step (free_keys_alone again branch _)

/-- The loop of `alloc_branch`; induction on the offsets still to come. -/
theorem alloc_branch_loop_alone (chain : List Indirect) :
    ∀ (offsets : List Nat) (c : Ctx) (parent : Int) (branch : List Indirect), branch ≠ [] →
      Alone block (c, AllocBranch.resume ⟨chain, branch, parent, offsets⟩)
        ({ c with v := (alloc_branch_loop c.v parent branch offsets).1 },
          if (alloc_branch_loop c.v parent branch offsets).2.2 then
            .splice chain (alloc_branch_loop c.v parent branch offsets).2.1
          else .undo (alloc_branch_loop c.v parent branch offsets).2.1 false)
  | [], c, parent, branch, _ => .refl
  | o :: offsets, c, parent, branch, hne => by
    refine (gas_new_block_alone ⟨chain, branch, parent, o :: offsets⟩ c).trans ?_
    rw [alloc_branch_loop]
    generalize gas_new_block c.v = r
    obtain ⟨b, e, v⟩ := r
    simp only [AllocBranch.got]
    by_cases h0 : int32 b = 0
    · simp only [if_pos h0, Bool.false_eq_true, if_false]
      exact .refl
    · simp only [if_neg h0, if_neg hne, List.headD_cons, List.tail_cons]
      exact alloc_branch_loop_alone chain offsets _ _ _ (by simp)

/-- `alloc_branch` for the last entry of a chain. -/
theorem alloc_branch_alone (chain : List Indirect) (offsets : List Nat) (c : Ctx) :
    Alone block (c, start_alloc chain offsets)
      (match alloc_branch c offsets (chain.getLastD default) with
      | (c', branch, none) => (c', .splice chain branch)
      | (c', _, some e) => (c', .done (.error e))) := by
  refine (gas_new_block_alone ⟨chain, [], 0, offsets⟩ c).trans ?_
  rw [alloc_branch]
  generalize gas_new_block c.v = r
  obtain ⟨b, e, v⟩ := r
  simp only [AllocBranch.got]
  by_cases h0 : int32 b = 0
  · simp only [if_pos h0, Bool.false_eq_true, if_false]
    exact .step .refl
  · simp only [if_neg h0, if_true, List.nil_append]
    refine (alloc_branch_loop_alone chain offsets.tail { c with v := v } _ _ (by simp)).trans ?_
    generalize alloc_branch_loop v (int32 b)
      [{ chain.getLastD default with key := u32_of_int (int32 b) }] offsets.tail = r
    obtain ⟨v', branch, ok⟩ := r
    cases ok with
    | true => exact .refl
    | false => exact (free_keys_alone false branch _).trans (.step .refl)

/-- The test of the chain and the store are one step, as they are under one lock. -/
theorem splice_branch_alone (chain branch : List Indirect) (c : Ctx) :
    Alone block (c, .splice chain branch)
      (match splice_branch c chain.dropLast branch with
      | (c', true) => (c', .done (.ok (branch.getLastD default).key))
      | (c', false) => (c', .reread)) := by
  refine .step ?_
  simp only [call_step, splice_branch]
  split_ifs
  · exact (free_keys_alone true branch c).trans (.step .refl)
  · exact .refl

/-! ## 3. `get_branch` and `gas_get_block`

Each level of a lookup reads a buffer, and that is a step. -/

/-- Where a call stands behind `get_branch` on the path `o`. -/
def Branch.next (o : List Nat) (r : Branch) : Pc :=
  if r.isNull then .done (.ok (r.chain.getLastD default).key)
  else if r.err = some Errno.EIO then .done (.error Errno.EIO)
  else if r.err = some .EAGAIN then .reread
  else start_alloc r.chain (o.drop (r.chain.length - 1))

theorem get_branch_loop_alone {o : List Nat} : ∀ (offsets : List Nat) (c : Ctx)
    (chain : List Indirect), offsets = o.drop chain.length →
      Alone block (c, .level chain offsets)
        ((get_branch_loop c chain (chain.getLastD default) offsets).c,
          (get_branch_loop c chain (chain.getLastD default) offsets).next o)
  | [], c, chain, _ => .step .refl
  | i :: offsets, c, chain, hoff => by
    refine .step ?_
    rw [get_branch_loop]
    simp only [call_step]
    obtain ⟨ok, v⟩ := sb_bread c.v
    cases ok with
    | false => exact .refl
    | true =>
      dsimp only
      by_cases hver : verify_chain { c with v := v } chain = false
      · rw [if_pos hver, if_pos hver]
        exact .refl
      · rw [if_neg hver, if_neg hver]
        generalize add_chain { c with v := v } (some (chain.getLastD default).key)
          (.blk (chain.getLastD default).key i) = q
        have hlen : (chain ++ [q]).length = chain.length + 1 := by simp
        by_cases hz : q.key = 0
        · rw [if_pos hz, if_pos hz]
          have hnext : Branch.next o ⟨{ c with v := v }, chain ++ [q], false, none⟩ =
              start_alloc (chain ++ [q]) (i :: offsets) := by
            simp [Branch.next, hoff]
          rw [hnext]
          exact .refl
        · rw [if_neg hz, if_neg hz]
          have ih := get_branch_loop_alone (o := o) offsets { c with v := v }
            (chain ++ [q]) (by rw [hlen, ← List.tail_drop, ← hoff, List.tail_cons])
          rwa [List.getLastD_concat] at ih

/-- The lookup from its beginning: the pointer in the inode, then the levels. -/
theorem get_branch_alone {o : List Nat} (ho : o ≠ []) {c : Ctx}
    (hpath : block_to_path c.v block = o) :
    Alone block (c, .reread) ((get_branch c o).c, (get_branch c o).next o) := by
  refine .step ?_
  simp only [call_step, hpath]
  cases o with
  | nil => exact absurd rfl ho
  | cons i offsets =>
    dsimp only
    rw [get_branch]
    by_cases hz : (add_chain c none (.idata i)).key = 0
    · rw [if_pos hz, if_pos hz]
      exact .refl
    · rw [if_neg hz, if_neg hz]
      exact get_branch_loop_alone offsets c [add_chain c none (.idata i)] rfl

/-- The body of `gas_get_block`, whenever it ends.  A retry is a run that comes back to `reread`,
and the induction is on the fuel. -/
theorem gas_get_block_loop_alone {o : List Nat} (ho : o ≠ []) : ∀ (fuel : Nat) (c : Ctx)
    {r : GetBlock}, block_to_path c.v block = o → gas_get_block_loop c o true fuel = some r →
      Alone block (c, .reread) (r.c, .done r.result)
  | 0, _, _, _, h => by simp [gas_get_block_loop] at h
  | fuel + 1, c, r, hpath, h => by
    refine (get_branch_alone ho hpath).trans ?_
    have hstep := (get_branch_spec c ho).ticked.blockStep
    rw [gas_get_block_loop] at h
    generalize get_branch c o = B at h hstep
    unfold Branch.next
    by_cases hn : B.isNull = true
    · rw [if_pos hn] at h ⊢
      rw [← Option.some.inj h]
      exact .refl
    rw [if_neg hn] at h ⊢
    by_cases hio : B.err = some Errno.EIO
    · rw [if_pos (Or.inr hio)] at h
      rw [if_pos hio, ← Option.some.inj h, GetBlock.result, hio]
      exact .refl
    rw [if_neg (by simp [hio])] at h
    rw [if_neg hio]
    by_cases hag : B.err = some .EAGAIN
    · rw [if_pos hag] at h ⊢
      exact gas_get_block_loop_alone ho fuel B.c (by rw [block_to_path_step hstep, hpath]) h
    rw [if_neg hag] at h ⊢
    refine (alloc_branch_alone B.chain (o.drop (B.chain.length - 1)) B.c).trans ?_
    have halloc := (alloc_branch_mapStep B.c (o.drop (B.chain.length - 1))
      (B.chain.getLastD default)).1
    generalize alloc_branch B.c (o.drop (B.chain.length - 1)) (B.chain.getLastD default) = A
      at h halloc
    obtain ⟨c1, branch, _ | e⟩ := A
    · refine (splice_branch_alone B.chain branch c1).trans ?_
      have hsplice := (splice_branch_mapStep c1 B.chain.dropLast branch).1
      dsimp only at h halloc
      generalize splice_branch c1 B.chain.dropLast branch = S at h hsplice
      obtain ⟨c2, _ | _⟩ := S
      · refine gas_get_block_loop_alone ho fuel c2 ?_ h
        rw [block_to_path_step ((hstep.trans halloc).trans hsplice), hpath]
      · dsimp only at h
        rw [← Option.some.inj h]
        exact .refl
    · dsimp only at h
      rw [← Option.some.inj h]
      exact .refl

/-- **A call that runs alone is `gas_get_block`.** From the start of a call its steps lead to the
state and the result that the function computes. -/
theorem gas_get_block_alone {c : Ctx} (hc : TreeOk c) (block : Nat) :
    Alone block (c, .reread)
      ((gas_get_block c block true).c, .done (gas_get_block c block true).result) := by
  unfold gas_get_block
  cases hpath : block_to_path c.v block with
  | nil =>
    refine .step ?_
    simp only [call_step, hpath]
    exact .refl
  | cons i offsets =>
    have hleaf := block_to_path_isLeaf hc.geometry (b := block) (by simp [hpath])
    rw [hpath] at hleaf
    obtain ⟨r, hr, -⟩ := gas_get_block_loop_create hc hleaf
    simp only [hr, Option.getD_some]
    exact gas_get_block_loop_alone (by simp) 1 c hpath (hr 0)

/-- A call that fills a hole. -/
theorem hole_alone : Alone 0 (hole_ctx both_free 0, .reread)
    ((gas_get_block (hole_ctx both_free 0) 0 true).c,
      .done (gas_get_block (hole_ctx both_free 0) 0 true).result) :=
  gas_get_block_alone (hole_accounted.1.treeOk (k := ()) (i := (hole_ctx both_free 0).inode) rfl
    (by decide)) 0

end GasFs
