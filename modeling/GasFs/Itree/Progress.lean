/-
# Calls at once come to an end

In a race no call waits for another one: a lock is held for one step of `call_step` only.  So wherever
the others stopped, a call that is left alone returns (`RaceInv.returns`), and every schedule can be
continued until all calls have returned (`race_can_end`).

The `goto reread` of `gas_get_block` is no loop without end.  `splice_branch` fails only where another
call has set the slot in the meantime, and a slot that is set stays set, so the next chain is longer
(`Pc.Deep`): a call begins again as often as its path has levels at most (`race_retries_le`).

Termination needs a measure in each case, and the measures differ.  For a call alone it is the place
in the function: the rounds left in a search, the offsets left in a branch, the blocks left to give
back.  For the retries it is the path: the first `m` slots of it are known to be set, and each retry
makes `m` larger.

The second argument uses the tree and not the schedule.  Whatever the other calls do in between,
they only add pointers; so a chain once read is a lower bound for what the next one will find, and
there is nothing that could make a call lose ground.
-/
import GasFs.Itree.Alone
import Mathlib.Data.Fintype.EquivFin

namespace GasFs

open PtrTree Relation

variable {ι : Type} [DecidableEq ι]

/-! ## 1. One call alone, from where it stands

A call may have been stopped anywhere, with the hint moved since it began its search. -/

section Alone

variable {block : Nat} {c : Ctx} {a : AllocBranch}

/-- The rounds left in a search from the map block `i` on, until it is at the hint again. -/
theorem rounds_left {i : Nat} (hi : i < c.v.sbi.s_bam_blocks) :
    ∃ n, (i + (n + 1)) % c.v.sbi.s_bam_blocks = c.v.s_bam_last := by
  have hlast := c.v.s_bam_last.isLt
  rcases Nat.lt_or_ge i c.v.s_bam_last with hlt | hge
  · refine ⟨c.v.s_bam_last - i - 1, ?_⟩
    rw [show i + (c.v.s_bam_last - i - 1 + 1) = c.v.s_bam_last by omega, Nat.mod_eq_of_lt hlast]
  · refine ⟨c.v.s_bam_last + c.v.sbi.s_bam_blocks - i - 1, ?_⟩
    rw [show i + (c.v.s_bam_last + c.v.sbi.s_bam_blocks - i - 1 + 1) =
      c.v.s_bam_last + c.v.sbi.s_bam_blocks by omega, Nat.add_mod_right, Nat.mod_eq_of_lt hlast]

/-- Where a search that was begun earlier ends: with a block, or with none. -/
def SearchEnd (a : AllocBranch) (s : Ctx × Pc) : Prop :=
  (∃ j b, s.2 = .alloc a (.took j b)) ∨ s.2 = .undo a.branch false

/-- The search goes on from any map block; induction on the rounds left.  The number of rounds is
fixed by the hint, which nobody moves now. -/
theorem look_alone : ∀ (n i : Nat), (i + (n + 1)) % c.v.sbi.s_bam_blocks = c.v.s_bam_last →
    ∃ s, Alone block (c, .alloc a (.look i)) s ∧ SearchEnd a s := by
  have hnext : ∀ {i : Nat}, ¬find_first_zero_bit (c.v.bam i) c.v.sbi.s_bits_per_block <
      c.v.sbi.s_bits_per_block → ∀ {s}, Alone block (c, .alloc a (.next i)) s →
      Alone block (c, .alloc a (.look i)) s := by
    intro i hbit s h
    refine .step ?_
    simp only [call_step]
    rw [if_neg hbit]
    exact h
  have htake : ∀ {i : Nat}, find_first_zero_bit (c.v.bam i) c.v.sbi.s_bits_per_block <
      c.v.sbi.s_bits_per_block → ∃ s, Alone block (c, .alloc a (.look i)) s ∧ SearchEnd a s := by
    intro i hbit
    refine ⟨call_step block c (.alloc a (.look i)), .step .refl, ?_⟩
    simp only [call_step]
    rw [if_pos hbit]
    exact Or.inl ⟨_, _, rfl⟩
  intro n
  induction n with
  | zero =>
    intro i hi
    by_cases hbit : find_first_zero_bit (c.v.bam i) c.v.sbi.s_bits_per_block < c.v.sbi.s_bits_per_block
    · exact htake hbit
    · refine ⟨(c, .undo a.branch false), hnext hbit (.step ?_), Or.inr rfl⟩
      simp only [call_step]
      rw [if_pos hi]
      exact .refl
  | succ n ih =>
    intro i hi
    by_cases hbit : find_first_zero_bit (c.v.bam i) c.v.sbi.s_bits_per_block < c.v.sbi.s_bits_per_block
    · exact htake hbit
    · by_cases hend : (i + 1) % c.v.sbi.s_bam_blocks = c.v.s_bam_last
      · refine ⟨(c, .undo a.branch false), hnext hbit (.step ?_), Or.inr rfl⟩
        simp only [call_step]
        rw [if_pos hend]
        exact .refl
      · obtain ⟨s, hs, he⟩ := ih ((i + 1) % c.v.sbi.s_bam_blocks) (by
          rw [Nat.mod_add_mod, ← hi]
          congr 1
          omega)
        refine ⟨s, hnext hbit (.step ?_), he⟩
        simp only [call_step]
        rw [if_neg hend]
        exact hs

/-- Where a call has nothing more to do than to begin again or to return. -/
def AtHead (s : Ctx × Pc) : Prop := s.2 = .reread ∨ ∃ r, s.2 = .done r

/-- The blocks are given back. -/
theorem undo_head (branch : List Indirect) (again : Bool) (c : Ctx) :
    ∃ s, Alone block (c, .undo branch again) s ∧ AtHead s := by
  refine ⟨_, (free_keys_alone again branch c).trans (.step .refl), ?_⟩
  simp only [call_step]
  cases again with
  | false => exact Or.inr ⟨_, rfl⟩
  | true => exact Or.inl rfl

theorem splice_head (chain branch : List Indirect) (c : Ctx) :
    ∃ s, Alone block (c, .splice chain branch) s ∧ AtHead s := by
  refine ⟨_, splice_branch_alone chain branch c, ?_⟩
  generalize splice_branch c chain.dropLast branch = r
  obtain ⟨c', _ | _⟩ := r
  · exact Or.inl rfl
  · exact Or.inr ⟨_, rfl⟩

/-- The rest of the branch is taken. -/
theorem resume_head (chain : List Indirect) (offsets : List Nat) (c : Ctx) (parent : Int)
    {branch : List Indirect} (hne : branch ≠ []) :
    ∃ s, Alone block (c, AllocBranch.resume ⟨chain, branch, parent, offsets⟩) s ∧ AtHead s := by
  have hloop : Alone block _ _ := alloc_branch_loop_alone chain offsets c parent branch hne
  generalize alloc_branch_loop c.v parent branch offsets = r at hloop
  obtain ⟨v', branch', _ | _⟩ := r
  · obtain ⟨s, hs, hhead⟩ := @undo_head block branch' false { c with v := v' }
    exact ⟨s, hloop.trans hs, hhead⟩
  · obtain ⟨s, hs, hhead⟩ := @splice_head block chain branch' { c with v := v' }
    exact ⟨s, hloop.trans hs, hhead⟩

/-- A block is linked, and what is behind it. -/
theorem got_head (b : Nat) (c : Ctx) : ∃ s, Alone block (a.got c b) s ∧ AtHead s := by
  unfold AllocBranch.got
  dsimp only
  split_ifs
  · exact undo_head a.branch false c
  · exact resume_head a.chain a.offsets.tail _ _ (by simp)
  · exact resume_head a.chain a.offsets.tail _ _ (by simp)

theorem alloc_head (a : AllocBranch) (c : Ctx) (at_ : NewBlockPc)
    (hi : ∀ i, at_ = .look i → i < c.v.sbi.s_bam_blocks) :
    ∃ s, Alone block (c, .alloc a at_) s ∧ AtHead s := by
  have hend : ∀ {s}, SearchEnd a s → ∃ s', Alone block s s' ∧ AtHead s' := by
    rintro ⟨c', pc⟩ (⟨j, b, rfl⟩ | rfl)
    · obtain ⟨s', hs', hhead⟩ := @got_head block a b { c' with v := c'.v.hint j }
      exact ⟨s', .step hs', hhead⟩
    · exact undo_head a.branch false c'
  cases at_ with
  | enter =>
    obtain ⟨s, hs, hhead⟩ := @got_head block a (gas_new_block c.v).1
      { c with v := (gas_new_block c.v).2.2 }
    exact ⟨s, (gas_new_block_alone a c).trans hs, hhead⟩
  | look i =>
    obtain ⟨n, hn⟩ := rounds_left (hi i rfl)
    obtain ⟨s, hs, he⟩ := @look_alone block c a n i hn
    obtain ⟨s', hs', hhead⟩ := hend he
    exact ⟨s', hs.trans hs', hhead⟩
  | next i =>
    by_cases hlast : (i + 1) % c.v.sbi.s_bam_blocks = c.v.s_bam_last
    · obtain ⟨s, hs, hhead⟩ := @undo_head block a.branch false c
      refine ⟨s, .step ?_, hhead⟩
      simp only [call_step]
      rw [if_pos hlast]
      exact hs
    · obtain ⟨n, hn⟩ := rounds_left (c := c) (Nat.mod_lt (i + 1) c.v.s_bam_last.pos)
      obtain ⟨s, hs, he⟩ := @look_alone block c a n _ hn
      obtain ⟨s', hs', hhead⟩ := hend he
      refine ⟨s', .step ?_, hhead⟩
      simp only [call_step]
      rw [if_neg hlast]
      exact hs.trans hs'
  | took i b =>
    obtain ⟨s, hs, hhead⟩ := @got_head block a b { c with v := c.v.hint i }
    exact ⟨s, .step hs, hhead⟩

/-- **From wherever it stands**, a call alone returns or begins again.  One case for each place in
`Pc`. -/
theorem pc_head {o : List Nat} {pc : Pc} (hok : pc.Ok c o) : ∃ s, Alone block (c, pc) s ∧ AtHead s := by
  cases pc with
  | reread => exact ⟨_, .refl, Or.inl rfl⟩
  | level chain offsets =>
    obtain ⟨-, hoff, -, -⟩ := hok
    have hloop : Alone block _ _ := get_branch_loop_alone offsets c chain hoff
    generalize get_branch_loop c chain (chain.getLastD default) offsets = r at hloop
    unfold Branch.next at hloop
    split_ifs at hloop
    · exact ⟨_, hloop, Or.inr ⟨_, rfl⟩⟩
    · exact ⟨_, hloop, Or.inr ⟨_, rfl⟩⟩
    · exact ⟨_, hloop, Or.inl rfl⟩
    · obtain ⟨s, hs, hhead⟩ := @alloc_head block
        ⟨r.chain, [], 0, o.drop (r.chain.length - 1)⟩ r.c .enter fun i hi => by simp at hi
      exact ⟨s, hloop.trans hs, hhead⟩
  | alloc a at_ => exact alloc_head a c at_ hok.2.2.2.2.2
  | splice chain branch => exact splice_head chain branch c
  | undo branch again => exact undo_head branch again c
  | done r => exact ⟨_, .refl, Or.inr ⟨r, rfl⟩⟩

end Alone

/-! ## 2. One call alone, in a race

The steps of one call, with the others standing still, are a schedule of the race. -/

section Race

variable {blocks : ι → Nat} {c0 c' : Ctx} {s : Race ι} {t : ι} {pc' : Pc}

/-- Steps of one call are steps of the race. -/
theorem Alone.race (h : Alone (blocks t) (s.c, s.pc t) (c', pc')) :
    ∃ k, (List.replicate k t).foldl (race_step blocks) s = ⟨c', Function.update s.pc t pc'⟩ := by
  generalize hs' : (c', pc') = s' at h
  induction h generalizing c' pc' with
  | refl =>
    obtain ⟨rfl, rfl⟩ := Prod.mk.inj hs'
    refine ⟨0, ?_⟩
    rw [Function.update_eq_self]
    rfl
  | @tail s1 s2 _ hstep ih =>
    obtain ⟨c1, pc1⟩ := s1
    obtain ⟨k, hk⟩ := ih rfl
    refine ⟨k + 1, ?_⟩
    rw [List.replicate_succ', List.foldl_append, hk]
    have hpc : Function.update s.pc t pc1 t = pc1 := Function.update_self ..
    simp only [List.foldl_cons, List.foldl_nil, race_step, hpc, hstep, ← hs', Function.update_idem]

/-- **A call that is left alone returns**, wherever the others stand.  If it begins again, it is a
call that runs alone from its start, and that one returns. -/
theorem RaceInv.returns (h : RaceInv blocks c0 s) (t : ι) : ∃ k c' r,
    (List.replicate k t).foldl (race_step blocks) s = ⟨c', Function.update s.pc t (.done r)⟩ := by
  obtain ⟨⟨c1, pc1⟩, halone, hhead⟩ := @pc_head (blocks t) _ _ _ (h.calls t)
  obtain ⟨k, hk⟩ := halone.race
  rcases hhead with rfl | ⟨r, rfl⟩
  · -- it begins again, in a tree that is sound
    have hinv := h.run (List.replicate k t)
    rw [hk] at hinv
    obtain ⟨c2, r, hdone⟩ : ∃ c2 r, Alone (blocks t) (c1, .reread) (c2, .done r) := by
      cases hpath : block_to_path c1.v (blocks t) with
      | nil =>
        refine ⟨c1, .error Errno.EIO, .step ?_⟩
        simp only [call_step, hpath]
        exact .refl
      | cons i offsets =>
        have hleaf := block_to_path_isLeaf hinv.ok.geometry (b := blocks t) (by simp [hpath])
        rw [hpath] at hleaf
        obtain ⟨r, hr, -⟩ := gas_get_block_loop_create hinv.ok hleaf
        exact ⟨_, _, gas_get_block_loop_alone (by simp) 1 c1 hpath (hr 0)⟩
    have hpc : Function.update s.pc t .reread t = .reread := Function.update_self ..
    rw [← hpc] at hdone
    obtain ⟨k', hk'⟩ := Alone.race (s := ⟨c1, Function.update s.pc t .reread⟩) hdone
    refine ⟨k + k', c2, r, ?_⟩
    rw [List.replicate_add, List.foldl_append, hk, hk', Function.update_idem]
  · exact ⟨k, c1, r, hk⟩

/-- **A race can always be brought to its end**: whatever was scheduled, the calls can be scheduled
on until all of them have returned.  The calls are brought home one after the other; a call that has
returned does nothing more. -/
theorem race_can_end [Finite ι] (hc : TreeOk c0) (blocks : ι → Nat) (schedule : List ι) :
    ∃ more, (race blocks c0 (schedule ++ more)).Over := by
  cases nonempty_fintype ι
  -- the calls of a list return one by one, and those that have returned stay
  have hlist : ∀ (l : List ι) (s : Race ι), RaceInv blocks c0 s → ∃ more : List ι,
      ∀ t, (t ∈ l ∨ ∃ r, s.pc t = .done r) →
        ∃ r, (more.foldl (race_step blocks) s).pc t = .done r := by
    intro l
    induction l with
    | nil => exact fun s _ => ⟨[], fun t ht => ht.resolve_left List.not_mem_nil⟩
    | cons u l ih =>
      intro s h
      obtain ⟨k, c', r, hk⟩ := h.returns u
      have hinv := h.run (List.replicate k u)
      rw [hk] at hinv
      obtain ⟨more, hmore⟩ := ih _ hinv
      refine ⟨List.replicate k u ++ more, fun t ht => ?_⟩
      rw [List.foldl_append, hk]
      refine hmore t ?_
      rcases eq_or_ne t u with rfl | hne
      · exact Or.inr ⟨r, Function.update_self ..⟩
      · rw [List.mem_cons, or_iff_right hne] at ht
        refine ht.imp_right fun hdone => ?_
        obtain ⟨r', hr'⟩ := hdone
        exact ⟨r', (Function.update_of_ne hne ..).trans hr'⟩
  obtain ⟨more, hmore⟩ := hlist Finset.univ.toList _ (race_inv hc blocks schedule)
  refine ⟨more, fun t => ?_⟩
  rw [race, List.foldl_append]
  exact hmore t (Or.inl (Finset.mem_toList.mpr (Finset.mem_univ t)))

/-- Two calls for one hole, stopped halfway, can both return. -/
theorem hole_race_can_end : ∃ more : List Bool,
    (race (fun _ => 0) (hole_ctx both_free 0) (hole_schedule.take 6 ++ more)).Over :=
  race_can_end (hole_accounted.1.treeOk (k := ()) (i := (hole_ctx both_free 0).inode) rfl (by decide))
    (fun _ => 0) (hole_schedule.take 6)

end Race

/-! ## 3. Beginning again

What a call has learned when it begins again. -/

/-- The first `n` slots of a path are set. -/
def SetUpTo (c : Ctx) (o : List Nat) (n : Nat) : Prop :=
  ∀ j, 0 < j → j ≤ n → c.val (o.take j) ≠ 0

/-- A chain that goes on from slots that are set, behind the first `m`.  Its last entry is the null
pointer that made the call allocate. -/
structure Ahead (c : Ctx) (o : List Nat) (m : Nat) (chain : List Indirect) : Prop where
  deep : m < chain.length
  filled : SetUpTo c o (chain.length - 1)
  chain : ChainOf c (o.take (chain.length - 1)) chain.dropLast

/-- What `m` retries have shown a call for the path `o`: its first `m` slots are set. -/
def Pc.Deep (c : Ctx) (o : List Nat) (m : Nat) : Pc → Prop
  | .reread => SetUpTo c o m
  | .level chain _ => SetUpTo c o m ∧ SetUpTo c o chain.length ∧ ChainOf c (o.take chain.length) chain
  | .alloc a _ => Ahead c o m a.chain
  | .splice chain _ => Ahead c o m chain
  | .undo _ true => SetUpTo c o (m + 1) ∧ m < o.length
  | _ => True

/-- The call begins again. -/
def Pc.isReread : Pc → Bool
  | .reread => true
  | _ => false

section Deep

variable {block : Nat} {c c' : Ctx} {o : List Nat} {m n : Nat} {chain : List Indirect} {pc : Pc}

theorem SetUpTo.mono (h : SetUpTo c o n) (hm : m ≤ n) : SetUpTo c o m :=
  fun j hj hle => h j hj (hle.trans hm)

/-- Slots that are set stay set. -/
theorem SetUpTo.grow (h : SetUpTo c o n) (ho : o ≠ [] → IsLeaf o) (hn : n ≤ o.length)
    (hg : ∀ q, shape.IsPath q → c.val q ≠ 0 → c'.val q = c.val q) : SetUpTo c' o n := by
  intro j hj hle
  have hpath := isPath_take (ho (List.ne_nil_of_length_pos (by omega))).1 hj (hle.trans hn)
  rw [hg _ hpath (h j hj hle)]
  exact h j hj hle

theorem ChainOf.grow {chain : List Indirect} (h : ChainOf c (o.take n) chain) (hfill : SetUpTo c o n)
    (ho : o ≠ [] → IsLeaf o) (hn : n ≤ o.length)
    (hg : ∀ q, shape.IsPath q → c.val q ≠ 0 → c'.val q = c.val q) : ChainOf c' (o.take n) chain where
  length := h.length
  entry l e hl := by
    have hlen := h.length
    have hlt : l < n := by
      have := (List.getElem?_eq_some_iff.mp hl).1
      rw [hlen, List.length_take] at this
      omega
    obtain ⟨hcell, hkey⟩ := h.entry l e hl
    rw [List.take_take, min_eq_left (by omega)] at hcell hkey ⊢
    have hpath := isPath_take (ho (List.ne_nil_of_length_pos (by omega))).1 (l := l + 1) (by omega)
      (by omega)
    exact ⟨hcell.grow hpath hg, by rw [hg _ hpath (hfill (l + 1) (by omega) (by omega)), hkey]⟩

theorem Ahead.grow (h : Ahead c o m chain) (ho : o ≠ [] → IsLeaf o) (hle : chain.length ≤ o.length)
    (hg : ∀ q, shape.IsPath q → c.val q ≠ 0 → c'.val q = c.val q) : Ahead c' o m chain :=
  ⟨h.deep, h.filled.grow ho (by omega) hg, h.chain.grow h.filled ho (by omega) hg⟩

/-- **What a call has seen stays true** while the tree grows. -/
theorem Pc.Deep.grow (h : pc.Deep c o m) (hok : pc.Ok c o) (ho : o ≠ [] → IsLeaf o) (hm : m ≤ o.length)
    (hg : ∀ q, shape.IsPath q → c.val q ≠ 0 → c'.val q = c.val q) : pc.Deep c' o m := by
  cases pc with
  | reread => exact SetUpTo.grow h ho hm hg
  | level chain offsets =>
    obtain ⟨hfill, hchain, hread⟩ := h
    have hle := hok.1.le
    exact ⟨hfill.grow ho hm hg, hchain.grow ho hle hg, hread.grow hchain ho hle hg⟩
  | alloc a at_ => exact Ahead.grow h ho hok.1.le hg
  | splice chain branch => exact Ahead.grow h ho hok.1.le hg
  | undo branch again =>
    cases again with
    | false => trivial
    | true => exact ⟨h.1.grow ho h.2 hg, h.2⟩
  | done r => trivial

/-- A null slot is behind those that are set. -/
theorem SetUpTo.lt_of_null (h : SetUpTo c o m) {n : Nat} (hn : 0 < n) (hz : c.val (o.take n) = 0) :
    m < n := by
  by_contra hle
  exact h n hn (by omega) hz

theorem SetUpTo.snoc (h : SetUpTo c o n) (hz : c.val (o.take (n + 1)) ≠ 0) : SetUpTo c o (n + 1) := by
  intro j hj hle
  rcases Nat.lt_or_eq_of_le hle with hlt | rfl
  · exact h j hj (by omega)
  · exact hz

/-- Behind a step, with one more retry if the call begins again. -/
structure Deepens (o : List Nat) (m : Nat) (r : Ctx × Pc) : Prop where
  le : m + (if r.2.isReread then 1 else 0) ≤ o.length
  deep : r.2.Deep r.1 o (m + if r.2.isReread then 1 else 0)

/-- The pointer in the inode is read. -/
theorem reread_deepens (ho : block_to_path c.v block = o) (hle : m ≤ o.length) (h : SetUpTo c o m) :
    Deepens o m (call_step block c .reread) := by
  cases o with
  | nil =>
    simp only [call_step, ho]
    exact ⟨hle, trivial⟩
  | cons i offsets =>
    simp only [call_step, ho]
    have hkey : (add_chain c none (.idata i)).key = c.val ((i :: offsets).take 1) :=
      (IsCell.root i).load
    by_cases hz : (add_chain c none (.idata i)).key = 0
    · rw [if_pos hz]
      rw [hkey] at hz
      refine ⟨hle, h.lt_of_null Nat.one_pos hz, fun j hj hj' => absurd hj' (by simpa using hj.ne'), ?_⟩
      exact ⟨rfl, fun l e hl => by simp at hl⟩
    · rw [if_neg hz]
      rw [hkey] at hz
      refine ⟨hle, h, fun j hj hj' => ?_, rfl, fun l e hl => ?_⟩
      · obtain rfl : j = 1 := le_antisymm hj' hj
        exact hz
      · cases l with
        | zero =>
          obtain rfl := Option.some.inj hl
          exact ⟨.root i, hkey⟩
        | succ l => simp at hl

/-- A block is read, and the next pointer in it: the chain is as it was read. -/
theorem level_deepens {offsets : List Nat} (ho : o ≠ [] → IsLeaf o)
    (hok : (Pc.level chain offsets).Ok c o) (hle : m ≤ o.length)
    (h : (Pc.level chain offsets).Deep c o m) :
    Deepens o m (call_step block c (.level chain offsets)) := by
  obtain ⟨hat, hoff, hkey, hne⟩ := hok
  cases offsets with
  | nil => exact ⟨hle, trivial⟩
  | cons i offsets =>
    have htick : Ticked c { c with v := { c.v with tick := c.v.tick + 1 } } := ⟨_, rfl⟩
    have hgrow : ∀ q, shape.IsPath q → c.val q ≠ 0 →
        ({ c with v := { c.v with tick := c.v.tick + 1 } } : Ctx).val q = c.val q := fun _ _ _ => rfl
    obtain ⟨hfill, hchain, hread⟩ := h
    have hat1 := hat.grow ho hgrow
    have hfill1 := hfill.grow ho hle hgrow
    have hchain1 := hchain.grow ho hat.le hgrow
    have hread1 := hread.ticked htick
    have hkey1 : (chain.getLastD default).key =
        ({ c with v := { c.v with tick := c.v.tick + 1 } } : Ctx).val (o.take chain.length) := hkey
    have hi : o[chain.length]? = some i := by
      rw [← Nat.add_zero chain.length, ← List.getElem?_drop, ← hoff]
      rfl
    simp only [call_step, sb_bread]
    cases c.v.env.bread c.v.tick with
    | false => exact ⟨hle, trivial⟩
    | true =>
      dsimp only
      generalize ({ c with v := { c.v with tick := c.v.tick + 1 } } : Ctx) = c1 at *
      obtain ⟨hat2, hkey2⟩ := hat1.snoc hi hkey1 hne
      have hcell := hat2.cell
      rw [if_neg (by simp [hread1.verify])]
      generalize add_chain c1 (some (chain.getLastD default).key)
        (.blk (chain.getLastD default).key i) = q at hat2 hkey2 hcell
      have hlen : (chain ++ [q]).length = chain.length + 1 := by simp
      rw [List.getLastD_concat, hlen] at hcell
      by_cases hz : q.key = 0
      · rw [if_pos hz]
        rw [hkey2] at hz
        have hm : m < chain.length + 1 := hfill1.lt_of_null (Nat.succ_pos _) hz
        refine ⟨hle, by rw [hlen]; exact hm, ?_, ?_⟩
        · rw [hlen]
          exact hchain1
        · rw [hlen, List.dropLast_concat]
          exact hread1
      · rw [if_neg hz]
        rw [hkey2] at hz
        refine ⟨hle, hfill1, ?_, ?_⟩
        · rw [hlen]
          exact hchain1.snoc hz
        · rw [hlen, List.take_add_one, hi, Option.toList_some]
          refine hread1.snoc ⟨?_, ?_⟩
          · rw [List.take_add_one, hi, Option.toList_some] at hcell
            exact hcell
          · rw [hkey2, List.take_add_one, hi, Option.toList_some]

/-- The test of `splice_branch` fails only if the last slot of the chain was set: the entries in
front of it are set, and set slots do not change.  So the slot that was null has a pointer now. -/
theorem splice_deepens {branch : List Indirect} (hok : (Pc.splice chain branch).Ok c o)
    (hle : m ≤ o.length) (h : Ahead c o m chain) :
    Deepens o m (call_step block c (.splice chain branch)) := by
  obtain ⟨hat, hbr, hlen⟩ := hok
  have hdeep := h.deep
  have hlast : c.load (branch.headD default).p = c.val (o.take chain.length) := by
    cases branch with
    | nil =>
      rw [List.length_drop, List.length_nil] at hlen
      have := hat.le
      omega
    | cons e branch =>
      rw [List.headD_cons, hbr.head e rfl]
      exact hat.cell.load
  simp only [call_step]
  rw [h.chain.verify, hlast]
  by_cases hz : c.val (o.take chain.length) = 0
  · rw [if_neg (by simp [hz])]
    exact ⟨hle, trivial⟩
  · rw [if_pos (Or.inr hz)]
    have hfill : SetUpTo c o (chain.length - 1 + 1) :=
      h.filled.snoc (by rw [Nat.sub_add_cancel (by omega)]; exact hz)
    exact ⟨hle, hfill.mono (show m + 1 ≤ _ by omega), hdeep.trans_le hat.le⟩

/-- **A step of the call**: it begins again only if another slot of its path was set.  The other
steps keep what it knows. -/
theorem call_step_deepens (hc : TreeOk c) (ho : block_to_path c.v block = o) (hok : pc.Ok c o)
    (hm : Mine c pc.priv) (hle : m ≤ o.length) (h : pc.Deep c o m) :
    Deepens o m (call_step block c pc) := by
  have hleaf : o ≠ [] → IsLeaf o := fun hne => by
    rw [← ho] at hne ⊢
    exact block_to_path_isLeaf hc.geometry hne
  have hg := (call_step_spec block hc (by rw [ho]; exact hok) hm).moves.grows
  cases pc with
  | reread => exact reread_deepens ho hle h
  | level chain offsets => exact level_deepens hleaf hok hle h
  | splice chain branch => exact splice_deepens hok hle h
  | alloc a at_ =>
    have hahead := Ahead.grow h hleaf hok.1.le hg
    cases at_ with
    | enter => exact ⟨hle, hahead⟩
    | look i =>
      simp only [call_step] at hahead ⊢
      split_ifs at hahead ⊢
      · exact ⟨hle, hahead⟩
      · exact ⟨hle, hahead⟩
    | next i =>
      simp only [call_step] at hahead ⊢
      split_ifs
      · exact ⟨hle, trivial⟩
      · exact ⟨hle, hahead⟩
    | took i b =>
      simp only [call_step, AllocBranch.got] at hahead ⊢
      by_cases h0 : int32 b = 0
      · rw [if_pos h0]
        exact ⟨hle, trivial⟩
      · rw [if_neg h0] at hahead ⊢
        unfold AllocBranch.resume at hahead ⊢
        dsimp only at hahead ⊢
        split_ifs at hahead ⊢
        all_goals exact ⟨hle, hahead⟩
  | undo branch again =>
    cases branch with
    | nil =>
      cases again with
      | false => exact ⟨hle, trivial⟩
      | true => exact ⟨h.2, h.1⟩
    | cons e branch =>
      cases again with
      | false => exact ⟨hle, trivial⟩
      | true => exact ⟨hle, h.1.grow hleaf h.2 hg, h.2⟩
  | done r => exact ⟨hle, trivial⟩

end Deep

/-! ## 4. Retries in a race

The other calls keep it, and the call itself adds to it. -/

/-- How often the call `t` goes back to `reread`. -/
def retries (blocks : ι → Nat) (t : ι) : Race ι → List ι → Nat
  | _, [] => 0
  | s, u :: schedule =>
    (if u = t ∧ ((race_step blocks s u).pc t).isReread then 1 else 0) +
      retries blocks t (race_step blocks s u) schedule

section Retries

variable {blocks : ι → Nat} {c0 : Ctx} {s : Race ι} {t : ι} {m : Nat}

/-- **A step of any call** keeps what the call `t` has seen. -/
theorem RaceInv.deep_step (h : RaceInv blocks c0 s) (u : ι)
    (hm : m ≤ (block_to_path c0.v (blocks t)).length)
    (hdeep : (s.pc t).Deep s.c (block_to_path c0.v (blocks t)) m) :
    ∃ m', m' = m + (if u = t ∧ ((race_step blocks s u).pc t).isReread then 1 else 0) ∧
      m' ≤ (block_to_path c0.v (blocks t)).length ∧
      ((race_step blocks s u).pc t).Deep (race_step blocks s u).c (block_to_path c0.v (blocks t)) m' := by
  have hpath : ∀ t, block_to_path s.c.v (blocks t) = block_to_path c0.v (blocks t) := fun t =>
    block_to_path_step h.map.1 _
  rcases eq_or_ne u t with rfl | hne
  · have hstep := call_step_deepens h.ok (hpath u) (h.calls u) (h.mine u) hm hdeep
    have hpc : (race_step blocks s u).pc u = (call_step (blocks u) s.c (s.pc u)).2 :=
      Function.update_self ..
    have hc : (race_step blocks s u).c = (call_step (blocks u) s.c (s.pc u)).1 := rfl
    rw [hpc, hc]
    simp only [true_and]
    exact ⟨_, rfl, hstep.le, hstep.deep⟩
  · have hgrow := (call_step_spec (blocks u) h.ok (by rw [hpath]; exact h.calls u) (h.mine u)).moves.grows
    have hpc : (race_step blocks s u).pc t = s.pc t := Function.update_of_ne hne.symm ..
    rw [hpc, if_neg fun hh => hne hh.1]
    refine ⟨m, rfl, hm, hdeep.grow (h.calls t) (fun hnil => ?_) hm hgrow⟩
    rw [← hpath] at hnil ⊢
    exact block_to_path_isLeaf h.ok.geometry hnil

theorem RaceInv.retries_le (schedule : List ι) : ∀ {s : Race ι} {m : Nat}, RaceInv blocks c0 s →
    m ≤ (block_to_path c0.v (blocks t)).length →
    (s.pc t).Deep s.c (block_to_path c0.v (blocks t)) m →
    m + retries blocks t s schedule ≤ (block_to_path c0.v (blocks t)).length := by
  induction schedule with
  | nil => exact fun _ hm _ => hm
  | cons u schedule ih =>
    intro s m h hm hdeep
    obtain ⟨m', hm', hle, hdeep'⟩ := h.deep_step u hm hdeep
    have hrest := ih (h.step u) hle hdeep'
    rw [retries]
    omega

/-- **A call begins again once for each level of its path at most**, however many others there are and
in whatever order they run: each time, another slot of its path was set. -/
theorem race_retries_le (hc : TreeOk c0) (blocks : ι → Nat) (schedule : List ι) (t : ι) :
    retries blocks t ⟨c0, fun _ => .reread⟩ schedule ≤ (block_to_path c0.v (blocks t)).length := by
  have hdeep : Pc.Deep c0 (block_to_path c0.v (blocks t)) 0 .reread :=
    fun j hj hle => absurd hle (Nat.not_le.mpr hj)
  have hle := (RaceInv.start blocks hc).retries_le (t := t) schedule (Nat.zero_le _) hdeep
  rwa [Nat.zero_add] at hle

/-- Of two calls for one hole each begins again once at most. -/
theorem hole_race_retries_le : retries (fun _ => 0) false ⟨hole_ctx both_free 0, fun _ => .reread⟩
    hole_schedule ≤ 1 := by
  have hpath : block_to_path hole_fs.vol 0 = [0] := by decide
  have hle := race_retries_le (hole_accounted.1.treeOk (k := ()) (i := (hole_ctx both_free 0).inode) rfl
    (by decide)) (fun _ => 0) hole_schedule false
  rw [show ((0 : Nat) : Int) = 0 from rfl, hpath] at hle
  exact hle

end Retries

end GasFs
