/-
# Truncation

`gas_truncate_inode` cuts the tree at the path `o` of the first block past the end of file.  The
slots it frees are `CutAt o T`: the slot that `o` reaches at some level `T`, and at every level
up to `T` the slots to the right of `o`.  The level is where `find_shared` stops
(`find_shared_spec`); wherever that is, everything from `o` on goes (`CutAt.of_rightOf`), which
needs no buffer read to succeed.  What lies in front of `o` stays, unless it lies below a block that
`find_shared` could not read (`FailsAt`, `truncate_keeps_or_fails`).

The main result is `gas_truncate_inode_cut`.

The path that is cut along need not exist in the tree: the first block past the end may be a hole.
`find_shared` reads as far as pointers go.  Then it climbs back over blocks in which nothing would
be left, so that a block is freed when its last pointer in front of the cut goes.

It has two ways to end.  Either the pointer at the level it stops is moved into `nr` and freed as a
whole, or the level is the last one of the path, and the entry is moved back by one so that the loop
over the ends of the blocks frees it with the rest (`shared_moved_back`, `shared_moved_out`).  Both
are described by `SharedOf`, and `cut_body_cut` puts the pieces together.
-/
import GasFs.Itree.Lookup
import Mathlib.Data.List.GetD

namespace GasFs

open PtrTree

/-! ## 1. The slots that go

A description by the path and a level.  That the level does not matter for what lies to the right is
`CutAt.of_rightOf`. -/

/-- The slots freed when the tree is cut at level `T` of the path `o`.  What is below these slots
goes with them. -/
def CutAt (o : List Nat) (T : Nat) (s : List Nat) : Prop :=
  s = o.take (T + 1) ∨ ∃ l x j, l ≤ T ∧ o[l]? = some x ∧ x < j ∧ s = o.take l ++ [j]

/-- **Whatever the level, the path and all paths to its right are cut off.** -/
theorem CutAt.of_rightOf {o q : List Nat} {T : Nat} (hT : T < o.length)
    (h : q = o ∨ RightOf o q) : Through (CutAt o T) q := by
  rcases h with rfl | ⟨l, x, y, hy, hx, hxy, htake⟩
  · exact ⟨_, List.take_prefix _ _, Or.inl rfl⟩
  · by_cases hl : l ≤ T
    · refine ⟨q.take (l + 1), List.take_prefix _ _, Or.inr ⟨l, x, y, hl, hx, hxy, ?_⟩⟩
      rw [List.take_add_one, hy, htake]
      rfl
    · refine ⟨q.take (T + 1), List.take_prefix _ _, Or.inl ?_⟩
      have := congrArg (List.take (T + 1)) htake
      rwa [List.take_take, List.take_take, min_eq_left (by omega)] at this

theorem not_cutAt_nil {o : List Nat} {T : Nat} (ho : o ≠ []) : ¬CutAt o T [] := by
  rintro (h | ⟨l, x, j, -, -, -, h⟩)
  · have := congrArg List.length h
    have hpos := List.length_pos_of_ne_nil ho
    simp only [List.length_nil, List.length_take] at this
    omega
  · simp at h

/-- A path that leaves `o` to the left is cut off only through the slot on `o` itself. -/
theorem through_cutAt_of_left {o q : List Nat} {T : Nat} (h : RightOf q o)
    (ht : Through (CutAt o T) q) : q.take (T + 1) = o.take (T + 1) := by
  obtain ⟨l, y, x, hx, hy, hyx, htake⟩ := h
  obtain ⟨s, ⟨r, rfl⟩, rfl | ⟨l', x', j, -, hx', hj, rfl⟩⟩ := ht
  · by_cases hT : T + 1 ≤ o.length
    · rw [List.take_append_of_le_length (by rw [List.length_take]; omega), List.take_take, min_self]
    · -- a path is no proper prefix of one to its right
      exfalso
      rw [List.take_of_length_le (by omega)] at hy
      have hl := (List.getElem?_eq_some_iff.mp hx).1
      rw [List.getElem?_append_left hl] at hy
      rw [hx] at hy
      exact absurd (Option.some.inj hy) (by omega)
  · exfalso
    have hl' := (List.getElem?_eq_some_iff.mp hx').1
    have hlen : (o.take l').length = l' := by rw [List.length_take]; omega
    have hq : (o.take l' ++ [j] ++ r)[l']? = some j := by
      rw [List.append_assoc, List.getElem?_append_right (by omega), hlen, Nat.sub_self]
      rfl
    rcases Nat.lt_trichotomy l l' with hlt | rfl | hgt
    · rw [List.append_assoc, List.getElem?_append_left (by omega), List.getElem?_take,
        if_pos hlt, hx] at hy
      exact absurd (Option.some.inj hy) (by omega)
    · rw [hq] at hy
      rw [hx'] at hx
      have h1 := Option.some.inj hy
      have h2 := Option.some.inj hx
      omega
    · have := congrArg (fun t => t[l']?) htake
      simp only [List.getElem?_take, if_pos hgt, hx', hq] at this
      exact absurd (Option.some.inj this) (by omega)

/-! ## 2. Where the cut is made

`shared_depth` skips the zero offsets at the end of the path, `get_branch` reads, and `climb` goes
back over blocks that would be empty. -/

/-- The loop over trailing zero offsets: it stops at the last offset that is not zero, or at the
first one.  A trailing zero offset means that the cut is at the start of a block, so the whole block
goes. -/
theorem shared_depth_spec (o : List Nat) : ∀ n, 1 ≤ n →
    1 ≤ shared_depth o n ∧ shared_depth o n ≤ n ∧
      (shared_depth o n = 1 ∨ o.getD (shared_depth o n - 1) 0 ≠ 0) ∧
      ∀ l, shared_depth o n ≤ l → l < n → o.getD l 0 = 0
  | 0, h => absurd h (by omega)
  | 1, _ => by
    simp only [shared_depth, true_or, true_and, le_refl]
    exact fun l h1 h2 => absurd h1 (by omega)
  | n + 2, _ => by
    simp only [shared_depth]
    by_cases hz : o.getD (n + 1) 0 = 0
    · obtain ⟨h1, h2, h3, h4⟩ := shared_depth_spec o (n + 1) (by omega)
      rw [if_pos hz]
      refine ⟨h1, by omega, h3, fun l hl hl' => ?_⟩
      by_cases he : l = n + 1
      · rw [he]; exact hz
      · exact h4 l hl (by omega)
    · rw [if_neg hz]
      exact ⟨by omega, le_refl _, Or.inr hz, fun l h1 h2 => absurd h1 (by omega)⟩

/-- The loop `while (p > chain && all_zeroes(…)) p--`: it stops at the first entry in front of which
there is something, or at the root.  So a block in which nothing would be left is cut off as a
whole. -/
theorem climb_spec (c : Ctx) (chain : List Indirect) : ∀ m,
    climb c chain m ≤ m ∧
      (climb c chain m = 0 ∨ all_zeroes c (chain.getD (climb c chain m) default) = false) ∧
      ∀ l, climb c chain m < l → l ≤ m → all_zeroes c (chain.getD l default) = true
  | 0 => ⟨le_refl _, Or.inl rfl, fun l h1 h2 => absurd h1 (by omega)⟩
  | m + 1 => by
    simp only [climb]
    by_cases hz : all_zeroes c (chain.getD (m + 1) default) = true
    · obtain ⟨h1, h2, h3⟩ := climb_spec c chain m
      rw [if_pos hz]
      refine ⟨by omega, h2, fun l hl hl' => ?_⟩
      by_cases he : l = m + 1
      · rw [he]; exact hz
      · exact h3 l hl (by omega)
    · rw [if_neg hz]
      exact ⟨le_refl _, Or.inr (by simpa using hz), fun l h1 h2 => absurd h1 (by omega)⟩

/-- `all_zeroes` on the entry of a path: everything in front of it in its block is null.  What
stands behind it goes anyway. -/
theorem all_zeroes_iff {c : Ctx} {q : List Nat} {j : Nat} {e : Indirect} (hq : q ≠ [])
    (he : EntryOf c (q ++ [j]) e) :
    all_zeroes c e = true ↔ ∀ i < j, c.val (q ++ [i]) = 0 := by
  have hne : c.val q ≠ 0 ∧ e.p = .blk (c.val q) j := by
    cases hp : e.p with
    | nr => exact absurd (hp ▸ he.1) not_isCell_nr
    | idata i =>
      have := isCell_idata_iff.mp (hp ▸ he.1)
      cases q with
      | nil => exact absurd rfl hq
      | cons a r => simp at this
    | blk b i =>
      obtain ⟨s, heq, -, hb, hb0⟩ := isCell_blk_iff.mp (hp ▸ he.1)
      obtain ⟨rfl, hj⟩ := List.append_inj' heq rfl
      obtain rfl : j = i := by simpa using hj
      exact ⟨hb ▸ hb0, by rw [hb]⟩
  have hval : ∀ i, c.val (q ++ [i]) = c.v.words (c.val q) i := fun i => by
    have : c.val (q ++ [i]) = if c.val q = 0 then 0 else c.v.words (c.val q) i := val_concat hq i
    rw [this, if_neg hne.1]
  simp only [all_zeroes, hne.2, List.all_eq_true, List.mem_range, beq_iff_eq, hval]

/-- On the way down the path that `find_shared` follows, the read of the block in the slot at level
`m` is the first that fails.  The reads are numbered, so this is a statement about the answers of
the environment. -/
def FailsAt (c : Ctx) (o : List Nat) (m : Nat) : Prop :=
  1 ≤ m ∧ m < shared_depth o o.length ∧ c.val (o.take m) ≠ 0 ∧
    (∀ i, i + 1 < m → c.v.env.bread (c.v.tick + i) = true) ∧
    c.v.env.bread (c.v.tick + (m - 1)) = false

theorem not_failsAt {c : Ctx} (hio : ∀ n, c.v.env.bread n = true) (o : List Nat) (m : Nat) :
    ¬FailsAt c o m := by
  rintro ⟨-, -, -, -, hread⟩
  rw [hio] at hread
  exact Bool.false_ne_true hread.symm

/-- What `find_shared` leaves on a context `c` whose `nr` is null.  The entries on the shared
branch point into the blocks of the path, behind the index `start l` that stays.  Either the
last one was moved back by one, or the pointer it stands for was moved into `nr`. -/
structure SharedOf (c : Ctx) (o : List Nat) (s : Shared) (start : Nat → Nat) : Prop where
  lt : s.at_ < o.length
  entry : ∀ l, 1 ≤ l → l ≤ s.at_ → c.val (o.take l) ≠ 0 ∧
    (s.chain.getD l default).p = .blk (c.val (o.take l)) (start l)
  inner : ∀ l, l < s.at_ → o[l]? = some (start l)
  last : (Ticked c s.c ∧ 1 ≤ s.at_ ∧ o[s.at_]? = some (start s.at_ + 1)) ∨
    (∃ c' e, Ticked c c' ∧ IsCell c (o.take (s.at_ + 1)) e ∧ o[s.at_]? = some (start s.at_) ∧
      s.c = (c'.store .nr (c'.load e)).store e 0)
  front : ∀ l x i, s.at_ < l → o[l]? = some x → i < x →
    c.val (o.take l ++ [i]) = 0 ∨ ∃ m ≤ l, FailsAt c o m
  above : ∀ m, FailsAt c o m → s.at_ < m

/-- The entry of a chain at a level above the first. -/
theorem EntryOf.blk {c : Ctx} {o : List Nat} {e : Indirect} {l x : Nat} (hl : 1 ≤ l)
    (hx : o[l]? = some x) (he : EntryOf c (o.take (l + 1)) e) :
    c.val (o.take l) ≠ 0 ∧ e.p = .blk (c.val (o.take l)) x := by
  have hne : o.take l ≠ [] := by
    have := (List.getElem?_eq_some_iff.mp hx).1
    refine List.ne_nil_of_length_pos ?_
    rw [List.length_take]
    omega
  rw [take_append_getElem hx] at he
  obtain ⟨hc, -⟩ := he
  cases hp : e.p with
  | nr => exact absurd (hp ▸ hc) not_isCell_nr
  | idata i =>
    have h1 := congrArg List.length (isCell_idata_iff.mp (hp ▸ hc))
    have h2 := List.length_pos_of_ne_nil hne
    simp only [List.length_append, List.length_singleton] at h1
    omega
  | blk b i =>
    obtain ⟨s, heq, -, hb, hb0⟩ := isCell_blk_iff.mp (hp ▸ hc)
    obtain ⟨rfl, hj⟩ := List.append_inj' heq rfl
    obtain rfl : x = i := by simpa using hj
    exact ⟨hb ▸ hb0, by rw [hb]⟩

/-- The branch that `find_shared` reads on a context whose `nr` is null. -/
abbrev shared_branch (c : Ctx) (o : List Nat) : Branch :=
  get_branch c (o.take (shared_depth o o.length))

theorem getElem?_getD {o : List Nat} {l : Nat} (hl : l < o.length) : o[l]? = some (o.getD l 0) := by
  rw [List.getD_eq_getElem _ _ hl, List.getElem?_eq_getElem hl]

section FindShared

variable {c : Ctx} {o : List Nat} {p : Nat}

/-- It follows the path, down to the last offset that is not zero at most. -/
theorem shared_branch_of (ho : o ≠ []) :
    BranchOf c (o.take (shared_depth o o.length)) (shared_branch c o) ∧
      1 ≤ (shared_branch c o).chain.length ∧
      (shared_branch c o).chain.length ≤ shared_depth o o.length := by
  obtain ⟨hk1, hkn, -, -⟩ := shared_depth_spec o o.length (List.length_pos_of_ne_nil ho)
  have hok : o.take (shared_depth o o.length) ≠ [] :=
    List.ne_nil_of_length_pos (by rw [List.length_take]; omega)
  have hB := get_branch_spec c hok
  have hle := hB.le
  rw [List.length_take] at hle
  exact ⟨hB, List.length_pos_of_ne_nil hB.pos, hle.trans (Nat.min_le_left _ _)⟩

/-- The entry at each level read. -/
theorem shared_branch_entry (ho : o ≠ []) {l : Nat} (hl : l < (shared_branch c o).chain.length) :
    EntryOf c (o.take (l + 1)) ((shared_branch c o).chain.getD l default) := by
  obtain ⟨hB, -, hle⟩ := shared_branch_of (c := c) ho
  have hent := hB.chain.entry l _ (by rw [List.getElem?_eq_getElem hl])
  rw [List.take_take, List.take_take, min_eq_left (by omega), min_eq_left (by omega)] at hent
  rwa [List.getD_eq_getElem _ _ hl]

/-- Every read in front of the last entry succeeded, so a read that fails does so behind them all. -/
theorem shared_branch_above (hp : p ≤ (shared_branch c o).chain.length - 1) {m : Nat}
    (hfail : FailsAt c o m) : p < m := by
  obtain ⟨hm1, -, -, -, hfalse⟩ := hfail
  by_contra hle
  have hread : ∀ i, i + 1 < (shared_branch c o).chain.length →
      c.v.env.bread (c.v.tick + i) = true := (get_branch_reads c _).1
  have htrue := hread (m - 1) (by omega)
  rw [hfalse] at htrue
  exact Bool.false_ne_true htrue

/-- Behind the last level read there is nothing in front of the path: the rest of its offsets is zero,
or the block there is a hole, or it could not be read. -/
theorem shared_branch_end (ho : o ≠ []) {l x i : Nat} (hl : (shared_branch c o).chain.length ≤ l)
    (hx : o[l]? = some x) (hi : i < x) :
    c.val (o.take l ++ [i]) = 0 ∨ ∃ m ≤ l, FailsAt c o m := by
  obtain ⟨hB, hpos, hle⟩ := shared_branch_of (c := c) ho
  obtain ⟨hread, hfail⟩ := get_branch_reads c (o.take (shared_depth o o.length))
  obtain ⟨-, hkn, -, hk0⟩ := shared_depth_spec o o.length (List.length_pos_of_ne_nil ho)
  have hlk : (o.take (shared_depth o o.length)).length = shared_depth o o.length := by
    rw [List.length_take]
    omega
  have hlo := (List.getElem?_eq_some_iff.mp hx).1
  rcases hB.outcome with ⟨-, -, h, -⟩ | ⟨-, -, h⟩ | ⟨-, he, hlt, hne, -⟩
  · -- the whole of the shared path was read
    have h1 := hk0 l (by omega) hlo
    rw [getElem?_getD hlo] at hx
    have h2 := Option.some.inj hx
    omega
  · -- a null pointer on the way
    rw [List.take_take, min_eq_left hle] at h
    have hsplit : o.take l ++ [i] = o.take (shared_branch c o).chain.length ++
        ((o.take l).drop (shared_branch c o).chain.length ++ [i]) := by
      conv_lhs =>
        rw [← List.take_append_drop (shared_branch c o).chain.length (o.take l), List.take_take,
          min_eq_left (by omega)]
      rw [List.append_assoc]
    have hmne : o.take (shared_branch c o).chain.length ≠ [] :=
      List.ne_nil_of_length_pos (by rw [List.length_take]; omega)
    rw [hsplit]
    exact Or.inl ((val_append hmne _).trans (by rw [← Ctx.val, h, walk_zero]))
  · -- a read that failed
    rw [hlk] at hlt
    rw [List.take_take, min_eq_left hle] at hne
    exact Or.inr ⟨_, hl, hpos, hlt, hne, fun j hj => hread j hj, hfail he⟩

/-- Behind the entry that the climb stops at there is nothing in front of the path. -/
theorem shared_branch_front (ho : o ≠ [])
    (hzero : ∀ l, p < l → l ≤ (shared_branch c o).chain.length - 1 →
      all_zeroes (shared_branch c o).c ((shared_branch c o).chain.getD l default) = true)
    {l x i : Nat} (hl : p < l) (hx : o[l]? = some x) (hi : i < x) :
    c.val (o.take l ++ [i]) = 0 ∨ ∃ m ≤ l, FailsAt c o m := by
  by_cases hlm : l < (shared_branch c o).chain.length
  · have ht := (shared_branch_of (c := c) ho).1.ticked
    have hlo := (List.getElem?_eq_some_iff.mp hx).1
    have hlne : o.take l ≠ [] := List.ne_nil_of_length_pos (by rw [List.length_take]; omega)
    have he := shared_branch_entry ho hlm
    rw [take_append_getElem hx] at he
    have he' : EntryOf (shared_branch c o).c (o.take l ++ [x])
        ((shared_branch c o).chain.getD l default) :=
      ⟨ht.isCell.mpr he.1, by rw [he.2, ht.val]⟩
    have hnull := (all_zeroes_iff hlne he').mp (hzero l hl (by omega)) i hi
    rw [ht.val] at hnull
    exact Or.inl hnull
  · exact shared_branch_end ho (by omega) hx hi

/-- `find_shared` returns the entry the climb stops at.  Its first exit is not taken: no one else
changes the pointers it has read. -/
theorem find_shared_eq (c : Ctx) (ho : o ≠ []) :
    let r := shared_branch (c.store .nr 0) o
    let p := climb r.c r.chain (r.chain.length - 1)
    find_shared c o =
      if p = shared_depth o o.length - 1 ∧ 0 < p then
        ⟨r.c, r.chain.set p (r.chain.getD p default).back, p⟩
      else ⟨(r.c.store .nr (r.c.load (r.chain.getD p default).p)).store
        (r.chain.getD p default).p 0, r.chain, p⟩ := by
  intro r p
  obtain ⟨hB, hpos, -⟩ := shared_branch_of (c := c.store .nr 0) ho
  have hkey : ¬((r.chain.getD (r.chain.length - 1) default).key = 0 ∧
      r.c.load (r.chain.getD (r.chain.length - 1) default).p ≠ 0) := by
    rintro ⟨h1, h2⟩
    obtain ⟨hcell, he⟩ := shared_branch_entry (c := c.store .nr 0) ho
      (l := r.chain.length - 1) (Nat.sub_lt hpos Nat.one_pos)
    rw [hB.ticked.load, hcell.load, ← he] at h2
    exact h2 h1
  unfold find_shared
  exact if_neg hkey

/-- The slot of the path itself goes with the cells behind the entry, which was moved back by one. -/
theorem shared_moved_back (ho : o ≠ []) (hp : p < (shared_branch c o).chain.length)
    (hk : p = shared_depth o o.length - 1) (hp0 : 0 < p)
    (hfront : ∀ l x i, p < l → o[l]? = some x → i < x →
      c.val (o.take l ++ [i]) = 0 ∨ ∃ m ≤ l, FailsAt c o m) (habove : ∀ m, FailsAt c o m → p < m) :
    SharedOf c o ⟨(shared_branch c o).c, (shared_branch c o).chain.set p
      ((shared_branch c o).chain.getD p default).back, p⟩
      fun l => if l = p then o.getD p 0 - 1 else o.getD l 0 := by
  obtain ⟨hB, -, hle⟩ := shared_branch_of (c := c) ho
  obtain ⟨-, hkn, hlast, -⟩ := shared_depth_spec o o.length (List.length_pos_of_ne_nil ho)
  have hx0 : o.getD p 0 ≠ 0 := by
    rw [hk]
    exact hlast.resolve_left (by omega)
  have hlt : p < o.length := by omega
  refine ⟨hlt, fun l hl1 hlp => ?_, fun l hl => ?_, Or.inl ⟨hB.ticked, hp0, ?_⟩, hfront, habove⟩
  · replace hlp : l ≤ p := hlp
    obtain ⟨hne, he⟩ := (shared_branch_entry ho (hlp.trans_lt hp)).blk hl1
      (getElem?_getD (hlp.trans_lt hlt))
    refine ⟨hne, ?_⟩
    by_cases hlp0 : l = p
    · rw [if_pos hlp0, List.getD_eq_getElem _ _ (by rw [List.length_set]; omega)]
      simp only [hlp0, List.getElem_set_self]
      rw [hlp0] at he
      simp only [Indirect.back, he]
    · rw [if_neg hlp0, ← he, List.getD_eq_getElem _ _ (by rw [List.length_set]; omega),
        List.getElem_set_ne (by omega)]
      exact congrArg Indirect.p (List.getD_eq_getElem _ _ (by omega)).symm
  · replace hl : l < p := hl
    rw [if_neg (by omega)]
    exact getElem?_getD (by omega)
  · show o[p]? = some ((if p = p then o.getD p 0 - 1 else o.getD p 0) + 1)
    rw [if_pos rfl, getElem?_getD (by omega)]
    congr 1
    omega

/-- The pointer in the slot of the path was moved into `nr`. -/
theorem shared_moved_out (ho : o ≠ []) (hp : p < (shared_branch c o).chain.length)
    (hfront : ∀ l x i, p < l → o[l]? = some x → i < x →
      c.val (o.take l ++ [i]) = 0 ∨ ∃ m ≤ l, FailsAt c o m) (habove : ∀ m, FailsAt c o m → p < m) :
    let r := shared_branch c o
    SharedOf c o ⟨(r.c.store .nr (r.c.load (r.chain.getD p default).p)).store
      (r.chain.getD p default).p 0, r.chain, p⟩ fun l => o.getD l 0 := by
  obtain ⟨hB, -, hle⟩ := shared_branch_of (c := c) ho
  obtain ⟨-, hkn, -, -⟩ := shared_depth_spec o o.length (List.length_pos_of_ne_nil ho)
  have hlt : p < o.length := by omega
  intro r
  refine ⟨hlt, fun l hl1 hlp => ?_, fun l hl => getElem?_getD (hl.trans hlt),
    Or.inr ⟨_, _, hB.ticked, (shared_branch_entry ho hp).1, getElem?_getD hlt, rfl⟩, hfront, habove⟩
  replace hlp : l ≤ p := hlp
  exact (shared_branch_entry ho (hlp.trans_lt hp)).blk hl1 (getElem?_getD (hlp.trans_lt hlt))

end FindShared

/-- **`find_shared` stops at a level of the path** from which on nothing lies in front of the path,
unless a read failed, and leaves the pointer of that level in `nr` or behind the entry. -/
theorem find_shared_spec (c : Ctx) {o : List Nat} (ho : o ≠ []) :
    ∃ start, SharedOf (c.store .nr 0) o (find_shared c o) start := by
  rw [find_shared_eq c ho]
  obtain ⟨-, hpos, -⟩ := shared_branch_of (c := c.store .nr 0) ho
  obtain ⟨hp, -, hzero⟩ := climb_spec (shared_branch (c.store .nr 0) o).c
    (shared_branch (c.store .nr 0) o).chain ((shared_branch (c.store .nr 0) o).chain.length - 1)
  generalize climb (shared_branch (c.store .nr 0) o).c (shared_branch (c.store .nr 0) o).chain
    ((shared_branch (c.store .nr 0) o).chain.length - 1) = p at hp hzero ⊢
  have hfront := fun l x i => @shared_branch_front (c.store .nr 0) o p ho hzero l x i
  have habove := fun m => @shared_branch_above (c.store .nr 0) o p hp m
  by_cases hback : p = shared_depth o o.length - 1 ∧ 0 < p
  · rw [if_pos hback]
    exact ⟨_, shared_moved_back ho (by omega) hback.1 hback.2 hfront habove⟩
  · rw [if_neg hback]
    exact ⟨_, shared_moved_out ho (by omega) hfront habove⟩

/-! ## 3. The loops of `gas_truncate_inode`

Each piece is a cut. -/

/-- The ends of the indirect blocks on the shared branch, from the level `i` up to the root.  The
blocks further up still have their pointers when a lower one is dealt with. -/
theorem cut_clear_ends {o : List Nat} (ho : IsLeaf o) {chain : List Indirect}
    {start : Nat → Nat} : ∀ (i : Nat) (c : Ctx), TreeOk c → i < o.length →
      (∀ l, 1 ≤ l → l ≤ i → c.val (o.take l) ≠ 0 ∧
        (chain.getD l default).p = .blk (c.val (o.take l)) (start l)) →
      Cut (fun s => ∃ l j, 1 ≤ l ∧ l ≤ i ∧ start l < j ∧ j < 1024 ∧ s = o.take l ++ [j]) c
        (clear_ends chain o.length i c)
  | 0, c, _, _, _ => by
    refine (Cut.none c).congr fun q hq => through_congr ⟨id, ?_⟩ (fun s _ => ?_) hq
    · rintro ⟨l, j, h1, h2, -⟩; omega
    · exact iff_of_false id (by rintro ⟨l, j, h1, h2, -⟩; omega)
  | i + 1, c, hc, hi, hch => by
    obtain ⟨hne, hp⟩ := hch (i + 1) (by omega) (le_refl _)
    have hq := isPath_take ho.1 (l := i + 1) (by omega) (by omega)
    have hrank := rank_take ho (l := i + 1) (by omega) (by omega)
    have hcells : cells_behind c.v (chain.getD (i + 1) default) =
        block_cells (c.val (o.take (i + 1))) (start (i + 1) + 1) 1024 := by
      simp only [cells_behind, hp, hc.geometry.toGeometry.indircount]
    have h1 := cut_block_cells hc hq hne (by omega) (start (i + 1) + 1)
    rw [hrank, show o.length - (i + 1) - 1 = o.length - 1 - (i + 1) by omega] at h1
    -- the blocks on the branch are not touched
    have hkeep : ∀ l, 1 ≤ l → l ≤ i →
        (free_branches (o.length - 1 - (i + 1)) c
          (block_cells (c.val (o.take (i + 1))) (start (i + 1) + 1) 1024)).val (o.take l) =
        c.val (o.take l) := by
      intro l hl hli
      refine h1.val_of_not (isPath_take ho.1 hl (by omega)) ?_
      rintro ⟨s, hs, j, -, -, rfl⟩
      have := hs.length_le
      simp only [List.length_append, List.length_take, List.length_singleton] at this
      omega
    have h2 := cut_clear_ends ho i _ (h1.treeOk hc) (by omega) fun l hl hli => by
      rw [hkeep l hl hli]
      exact hch l hl (by omega)
    simp only [clear_ends, hcells]
    refine (h1.trans h2).congr fun q hq => through_congr ⟨?_, ?_⟩ (fun s _ => ?_) hq
    · rintro (⟨j, -, -, h⟩ | ⟨l, j, -, -, -, -, h⟩) <;> simp at h
    · rintro ⟨l, j, -, -, -, -, h⟩; simp at h
    · constructor
      · rintro (⟨j, hj, hj', rfl⟩ | ⟨l, j, h3, h4, h5, h6, rfl⟩)
        · exact ⟨i + 1, j, by omega, le_refl _, by omega, hj', rfl⟩
        · exact ⟨l, j, h3, by omega, h5, h6, rfl⟩
      · rintro ⟨l, j, h3, h4, h5, h6, rfl⟩
        by_cases he : l = i + 1
        · subst he; exact Or.inl ⟨j, by omega, h6, rfl⟩
        · exact Or.inr ⟨l, j, h3, by omega, h5, h6, rfl⟩

/-- One round of the loop at `do_indirects`. -/
theorem cut_indirect {c : Ctx} (hc : TreeOk c) {w : Nat} (hw : w < 3) :
    Cut (· = [w + 6]) c
      (let c' := c.store .nr (c.load (.idata (DIRECT + w)))
       if c'.nr = 0 then c'
       else free_branches (w + 1) (c'.store (.idata (DIRECT + w)) 0) [.nr]) := by
  have hq : shape.IsPath [w + 6] := isPath_cons.mpr ⟨by omega, by simp, by simp⟩
  have hcell : IsCell c [w + 6] (.idata (DIRECT + w)) := by
    rw [isCell_idata_iff, Nat.add_comm]
  have hrank : rank [w + 6] = w + 1 := by
    simp only [rank, List.headD_cons, List.length_cons, List.length_nil]
    omega
  by_cases hz : c.load (.idata (DIRECT + w)) = 0
  · have hz' : (c.store .nr (c.load (.idata (DIRECT + w)))).nr = 0 := hz
    simp only [hz', if_true]
    exact (cut_null hq (hcell.load ▸ hz)).retarget rfl (InodeStep.refl _) rfl
  · have hz' : (c.store .nr (c.load (.idata (DIRECT + w)))).nr ≠ 0 := hz
    simp only [hz', if_false]
    rw [← hrank]
    exact cut_free_moved hc hq hcell hz

theorem cut_do_indirects {c : Ctx} (hc : TreeOk c) (w : Nat) :
    Cut (fun s => ∃ j, w + 6 ≤ j ∧ j < 9 ∧ s = [j]) c (do_indirects w c) := by
  unfold do_indirects
  have hlist : ∀ (ws : List Nat) (c : Ctx), TreeOk c → (∀ w ∈ ws, w < 3) →
      Cut (fun s => ∃ w ∈ ws, s = [w + 6]) c (ws.foldl (fun c first_whole =>
        let c := c.store .nr (c.load (.idata (DIRECT + first_whole)))
        if c.nr = 0 then c
        else free_branches (first_whole + 1) (c.store (.idata (DIRECT + first_whole)) 0) [.nr]) c)
      := by
    intro ws
    induction ws with
    | nil =>
      intro c _ _
      exact (Cut.none c).congr fun q hq =>
        through_congr ⟨id, by simp⟩ (fun s _ => by simp) hq
    | cons w ws ih =>
      intro c hc hws
      have h1 := cut_indirect hc (hws w (by simp))
      have h2 := ih _ (h1.treeOk hc) fun x hx => hws x (List.mem_cons_of_mem _ hx)
      refine (h1.trans h2).congr fun q hq => through_congr ⟨by simp, by simp⟩ (fun s _ => ?_) hq
      simp only [List.mem_cons, exists_eq_or_imp]
  have hmem : ∀ x, x ∈ List.range' w (DEPTH - 1 - w) ↔ w ≤ x ∧ x < 3 := fun x => by
    rw [List.mem_range'_1]
    simp only [DEPTH]
    omega
  refine (hlist _ c hc fun x hx => ((hmem x).mp hx).2).congr fun q hq =>
    through_congr ⟨by simp, by simp⟩ (fun s _ => ?_) hq
  constructor
  · rintro ⟨x, hx, rfl⟩
    obtain ⟨h1, h2⟩ := (hmem x).mp hx
    exact ⟨x + 6, by omega, by omega, rfl⟩
  · rintro ⟨j, h1, h2, rfl⟩
    refine ⟨j - 6, (hmem _).mpr ⟨by omega, by omega⟩, ?_⟩
    rw [Nat.sub_add_cancel (by omega)]

/-- `block_truncate_page` leaves the tree alone. -/
theorem block_truncate_page_cut (c : Ctx) :
    Cut (fun _ => False) c (block_truncate_page c) ∧
      ∀ q, (block_truncate_page c).val q = c.val q := by
  unfold block_truncate_page
  by_cases hs : c.inode.i_size % c.v.sbi.s_blocksize = 0
  · simp only [hs, if_true]
    exact ⟨Cut.none c, fun _ => trivial⟩
  · simp only [hs, if_false]
    obtain ⟨ht, -⟩ := gas_get_block_lookup c (c.inode.i_size / c.v.sbi.s_blocksize)
    generalize gas_get_block c (c.inode.i_size / c.v.sbi.s_blocksize) false = r at ht
    by_cases hm : r.mapped = none
    · simp only [hm, if_true]
      exact ⟨ht.cut, ht.val⟩
    · simp only [hm, if_false]
      exact ⟨ht.cut.retarget rfl ⟨_, _, _, _, rfl⟩ rfl, fun q => ht.val q⟩

/-! ## 4. `gas_truncate_inode`

The pieces together, and what is left of the logical blocks. -/

/-- The part of `gas_truncate_inode` that frees, for the path of the first block to go.  It is
`gas_truncate_inode` without the zeroing of the last page and without the times. -/
def cut_body (c : Ctx) : List Nat → Ctx
  | [] => c
  | [o] => do_indirects 0 (free_data c (idata_cells o DIRECT))
  | o :: offsets =>
    let n := (o :: offsets).length
    let s := find_shared c (o :: offsets)
    let c := if s.c.nr = 0 then s.c else free_branches (n - 1 - s.at_) s.c [.nr]
    do_indirects (o + 1 - DIRECT) (clear_ends s.chain n s.at_ c)

theorem TreeOk.withNr {c : Ctx} (h : TreeOk c) (x : Nat) : TreeOk (c.store .nr x) := by
  have hcut : Cut (fun _ => False) c (c.store .nr x) :=
    (Cut.none c).retarget rfl (InodeStep.refl _) rfl
  exact hcut.treeOk h

/-- The pointer `find_shared` left in `nr`, if any, is freed: nothing is cut, or the slot of the
path at the level where it stopped. -/
theorem SharedOf.cut_top {c : Ctx} (hc : TreeOk c) {o : List Nat} (ho : IsLeaf o) {s : Shared}
    {start : Nat → Nat} (hnr : c.nr = 0) (h : SharedOf c o s start) :
    ∃ Z : List Nat → Prop, Cut Z c (if s.c.nr = 0 then s.c
        else free_branches (o.length - 1 - s.at_) s.c [.nr]) ∧ ¬Z [] ∧
      (∀ q, Z q → q = o.take (s.at_ + 1)) ∧
      (Z (o.take (s.at_ + 1)) ∨ 1 ≤ s.at_ ∧ o[s.at_]? = some (start s.at_ + 1)) ∧
      ∀ x, o[s.at_]? = some x → start s.at_ ≤ x ∧ x ≤ start s.at_ + 1 := by
  have hlt := h.lt
  rcases h.last with ⟨ht, hp, hx⟩ | ⟨c', e, ht, he, hx, heq⟩
  · have hz : s.c.nr = 0 := by obtain ⟨_, hs⟩ := ht; rw [hs]; exact hnr
    rw [if_pos hz]
    refine ⟨fun _ => False, ht.cut, id, fun _ h => h.elim, Or.inr ⟨hp, hx⟩, fun x hx' => ?_⟩
    rw [hx] at hx'
    have := Option.some.inj hx'
    omega
  · have hq := isPath_take ho.1 (l := s.at_ + 1) (by omega) (by omega)
    have hrank := rank_take ho (l := s.at_ + 1) (by omega) (by omega)
    have hc' := ht.treeOk hc
    have he' : IsCell c' (o.take (s.at_ + 1)) e := ht.isCell.mpr he
    have hne : e ≠ .nr := by rintro rfl; exact not_isCell_nr he
    have hnrs : s.c.nr = c'.load e := by
      rw [heq, show c'.store .nr (c'.load e) = { c' with nr := c'.load e } from rfl,
        store_withNr _ _ hne]
    refine ⟨fun q => False ∨ q = o.take (s.at_ + 1), ?_, ?_, fun q h => h.resolve_left id,
      Or.inl (Or.inr rfl), fun x hx' => ?_⟩
    · refine ht.cut.trans ?_
      by_cases hz : s.c.nr = 0
      · rw [if_pos hz, heq, moved_null hne (hnrs ▸ hz)]
        refine (cut_null hq ?_).retarget rfl (InodeStep.refl _) rfl
        rw [← he'.load, ← hnrs, hz]
      · rw [if_neg hz, heq, show o.length - 1 - s.at_ = rank (o.take (s.at_ + 1)) by omega]
        exact cut_free_moved hc' hq he' (hnrs ▸ hz)
    · rintro (h | h)
      · exact h
      · exact hq.ne_nil h.symm
    · rw [hx] at hx'
      have := Option.some.inj hx'
      omega

/-- Cut through a direct slot: the direct slots from there on go, and the three trees.  No block has
to be read to find the place. -/
theorem cut_body_direct {c : Ctx} (hc : TreeOk c) {i : Nat} (ho : IsLeaf [i]) :
    Cut (CutAt [i] 0) c (cut_body c [i]) := by
  have hi : i < 6 := by
    have h1 := ho.2
    simp only [List.length_cons, List.length_nil, List.headD_cons] at h1
    omega
  have h1 := cut_idata_cells hc i
  have h2 := cut_do_indirects (h1.treeOk hc) 0
  refine (h1.trans h2).congr fun q hq =>
    through_congr ⟨by simp, not_cutAt_nil (by simp)⟩ (fun s hs => ?_) hq
  constructor
  · rintro (⟨j, hj, hj', rfl⟩ | ⟨j, hj, hj', rfl⟩)
    · by_cases he : j = i
      · subst he; exact Or.inl rfl
      · exact Or.inr ⟨0, i, j, le_refl _, rfl, by omega, rfl⟩
    · exact Or.inr ⟨0, i, j, le_refl _, rfl, by omega, rfl⟩
  · rintro (rfl | ⟨l, x, j, hl, hx, hxj, rfl⟩)
    · exact Or.inl ⟨i, le_refl _, hi, rfl⟩
    · obtain rfl : l = 0 := by omega
      obtain rfl : i = x := by simpa using hx
      have hj : j < 9 := (isPath_cons.mp hs).1
      by_cases he : j < 6
      · exact Or.inl ⟨j, by omega, he, rfl⟩
      · exact Or.inr ⟨j, by omega, hj, rfl⟩

section Steps

variable {o : List Nat} {T i : Nat} {Z : List Nat → Prop} {start : Nat → Nat}

/-- The slots emptied on an indirect path that starts with `i`: the one whose pointer was in `nr`,
the ends of the blocks on the shared branch, and the trees behind the one it lies in.  The source
has a place for each of the three, and `CutAt` says the same in one line. -/
def CutSteps (o : List Nat) (T i : Nat) (Z : List Nat → Prop) (start : Nat → Nat)
    (q : List Nat) : Prop :=
  Z q ∨ (∃ l j, 1 ≤ l ∧ l ≤ T ∧ start l < j ∧ j < 1024 ∧ q = o.take l ++ [j]) ∨
    ∃ j, i + 1 - DIRECT + 6 ≤ j ∧ j < 9 ∧ q = [j]

theorem not_cutSteps_nil (hZ : ¬Z []) : ¬CutSteps o T i Z start [] := by
  rintro (h | ⟨_, _, -, -, -, -, h⟩ | ⟨_, -, -, h⟩)
  · exact hZ h
  · simp at h
  · simp at h

/-- None of them lies in front of the path. -/
theorem CutSteps.cutAt (h0 : o[0]? = some i) (hi : 6 ≤ i) (hT : T < o.length)
    (hZ : ∀ q, Z q → q = o.take (T + 1)) (hinner : ∀ l, l < T → o[l]? = some (start l))
    (hlast : ∀ x, o[T]? = some x → start T ≤ x ∧ x ≤ start T + 1) {q : List Nat}
    (h : CutSteps o T i Z start q) : CutAt o T q := by
  have hxT : o[T]? = some o[T] := List.getElem?_eq_getElem hT
  obtain ⟨hx1, hx2⟩ := hlast _ hxT
  rcases h with h | ⟨l, j, hl, hlT, hsj, hj, rfl⟩ | ⟨j, hj, hj', rfl⟩
  · exact Or.inl (hZ q h)
  · by_cases he : l = T
    · subst he
      by_cases hjx : j = o[l]
      · subst hjx
        exact Or.inl (take_append_getElem hxT).symm
      · exact Or.inr ⟨l, o[l], j, le_refl _, hxT, by omega, rfl⟩
    · exact Or.inr ⟨l, start l, j, hlT, hinner l (by omega), hsj, rfl⟩
  · simp only [DIRECT] at hj
    exact Or.inr ⟨0, i, j, by omega, h0, by omega, rfl⟩

/-- And they are all the slots of a cut at the level where `find_shared` stopped. -/
theorem CutAt.cutSteps (ho : IsLeaf o) (h0 : o[0]? = some i) (hi : 6 ≤ i) (hT : T < o.length)
    (hZ : Z (o.take (T + 1)) ∨ 1 ≤ T ∧ o[T]? = some (start T + 1))
    (hinner : ∀ l, l < T → o[l]? = some (start l))
    (hlast : ∀ x, o[T]? = some x → start T ≤ x ∧ x ≤ start T + 1) {q : List Nat}
    (hq : shape.IsPath q) (h : CutAt o T q) : CutSteps o T i Z start q := by
  have hxT : o[T]? = some o[T] := List.getElem?_eq_getElem hT
  have htakeT := take_append_getElem hxT
  rcases h with rfl | ⟨l, x, j, hl, hx, hxj, rfl⟩
  · -- the slot of the path itself
    rcases hZ with h | ⟨hT1, hsucc⟩
    · exact Or.inl h
    · rw [hxT] at hsucc
      have hsucc := Option.some.inj hsucc
      rw [htakeT, isPath_append (isPath_take ho.1 hT1 (by omega))] at hq
      exact Or.inr (Or.inl ⟨T, o[T], hT1, le_refl _, by omega, hq.2 _ (by simp), htakeT⟩)
  · by_cases hl0 : l = 0
    · -- one of the slots in the inode
      subst hl0
      rw [h0] at hx
      obtain rfl := Option.some.inj hx
      have hj : j < 9 := (isPath_cons.mp hq).1
      simp only [CutSteps, DIRECT]
      exact Or.inr (Or.inr ⟨j, by omega, hj, rfl⟩)
    · -- a slot in a block on the branch
      have hlo := (List.getElem?_eq_some_iff.mp hx).1
      rw [isPath_append (isPath_take ho.1 (by omega) (by omega))] at hq
      refine Or.inr (Or.inl ⟨l, j, by omega, hl, ?_, hq.2 j (by simp), rfl⟩)
      by_cases he : l = T
      · subst he
        have := (hlast x hx).1
        omega
      · have h1 := hinner l (by omega)
        rw [hx] at h1
        exact Option.some.inj h1 ▸ hxj

end Steps

/-- The freeing part of a path through an indirect block: the pointer in `nr`, the ends of the blocks
on the shared branch, and the trees behind, one after the other. -/
theorem cut_body_indirect {c : Ctx} (hc : TreeOk c) {i i' : Nat} {r : List Nat}
    (ho : IsLeaf (i :: i' :: r)) {start : Nat → Nat}
    (hs : SharedOf (c.store .nr 0) (i :: i' :: r) (find_shared c (i :: i' :: r)) start) :
    Cut (CutAt (i :: i' :: r) (find_shared c (i :: i' :: r)).at_) c
      (cut_body c (i :: i' :: r)) := by
  generalize hsdef : find_shared c (i :: i' :: r) = s at hs
  obtain ⟨Z, hZ, hZnil, hZsub, hZtop, hlast⟩ := hs.cut_top (hc.withNr 0) ho rfl
  have hbody : cut_body c (i :: i' :: r) = do_indirects (i + 1 - DIRECT)
      (clear_ends s.chain (i :: i' :: r).length s.at_ (if s.c.nr = 0 then s.c
        else free_branches ((i :: i' :: r).length - 1 - s.at_) s.c [.nr])) := by
    rw [cut_body, hsdef]
    intro h
    simp at h
  rw [hbody]
  have h0 : (i :: i' :: r)[0]? = some i := rfl
  have hi6 : 6 ≤ i := by
    have := ho.2
    simp only [List.length_cons, List.headD_cons] at this
    omega
  have hne := ho.1.ne_nil
  generalize i :: i' :: r = o at *
  have hT := hs.lt
  have hZ1 := hZ.treeOk (hc.withNr 0)
  -- freeing what was in `nr` leaves the blocks of the shared branch where they are
  have h2 := @cut_clear_ends o ho s.chain start s.at_ _ hZ1 hT fun l hl hl' => by
    have hkeep : (if s.c.nr = 0 then s.c else free_branches (o.length - 1 - s.at_) s.c
        [.nr]).val (o.take l) = (c.store .nr 0).val (o.take l) := by
      refine hZ.val_of_not (isPath_take ho.1 hl (by omega)) ?_
      rintro ⟨q, hq, hz⟩
      have hlen := hq.length_le
      rw [hZsub q hz] at hlen
      simp only [List.length_take] at hlen
      omega
    rw [hkeep]
    exact hs.entry l hl hl'
  have h3 := cut_do_indirects (h2.treeOk hZ1) (i + 1 - DIRECT)
  have hall : Cut (CutSteps o s.at_ i Z start) (c.store .nr 0) _ := hZ.trans (h2.trans h3)
  have hstart : Cut (fun _ => False) c (c.store .nr 0) :=
    (Cut.none c).retarget rfl (InodeStep.refl _) rfl
  refine (hstart.trans hall).congr fun q hq =>
    through_congr ⟨?_, not_cutAt_nil hne⟩ (fun q hq => ⟨?_, ?_⟩) hq
  · rintro (h | h)
    · exact h
    · exact not_cutSteps_nil hZnil h
  · rintro (h | h)
    · exact h.elim
    · exact h.cutAt h0 hi6 hT hZsub hs.inner hlast
  · exact fun h => Or.inr (h.cutSteps ho h0 hi6 hT hZtop hs.inner hlast hq)

/-- **The freeing part cuts the tree at some level of the path**, and that level is above every read
that failed. -/
theorem cut_body_cut {c : Ctx} (hc : TreeOk c) {o : List Nat} (ho : IsLeaf o) :
    ∃ T, T < o.length ∧ Cut (CutAt o T) c (cut_body c o) ∧
      (∀ l x i, T < l → o[l]? = some x → i < x →
        c.val (o.take l ++ [i]) = 0 ∨ ∃ m ≤ l, FailsAt c o m) ∧
      ∀ m, FailsAt c o m → T < m := by
  have hone := ho.1.ne_nil
  match o, ho, hone with
  | [i], ho, _ =>
    refine ⟨0, by simp, cut_body_direct hc ho, fun l x k hl hx => ?_, fun m hm => hm.1⟩
    have := (List.getElem?_eq_some_iff.mp hx).1
    simp only [List.length_cons, List.length_nil] at this
    omega
  | i :: i' :: r, ho, hne =>
    obtain ⟨start, hs⟩ := find_shared_spec c hne
    exact ⟨_, hs.lt, cut_body_indirect hc ho hs, hs.front, hs.above⟩

/-- The path of the first block that truncation removes. -/
def cut_path (c : Ctx) : List Nat := block_to_path c.v (first_cut_block c.v c.inode.i_size)

theorem gas_truncate_inode_eq (c : Ctx) :
    (cut_path c = [] → gas_truncate_inode c = block_truncate_page c) ∧
      (cut_path c ≠ [] → ∃ mtime ctime, gas_truncate_inode c =
        { cut_body (block_truncate_page c) (cut_path c) with
          inode := { (cut_body (block_truncate_page c) (cut_path c)).inode with
            i_mtime := mtime, i_ctime := ctime } }) := by
  have hpath : block_to_path (block_truncate_page c).v (first_cut_block c.v c.inode.i_size) =
      cut_path c := by
    obtain ⟨_, _, _, _, he⟩ := (block_truncate_page_cut c).1.vol
    rw [he]
    rfl
  unfold gas_truncate_inode
  simp only [hpath]
  generalize cut_path c = o
  match o with
  | [] => exact ⟨fun _ => rfl, fun h => absurd rfl h⟩
  | [i] => exact ⟨fun h => by simp at h, fun _ => ⟨_, _, rfl⟩⟩
  | i :: i' :: r => exact ⟨fun h => by simp at h, fun _ => ⟨_, _, rfl⟩⟩

/-- **Truncation cuts the tree at some level of the path of the first block past the end.**  What
lies in front of the path below that level was a hole, or lies below a block that `find_shared` could
not read; and the cut is made above such a block. -/
theorem gas_truncate_inode_cut {c : Ctx} (hc : TreeOk c) (ho : cut_path c ≠ []) :
    ∃ T, T < (cut_path c).length ∧ Cut (CutAt (cut_path c) T) c (gas_truncate_inode c) ∧
      (∀ l x i, T < l → (cut_path c)[l]? = some x → i < x →
        c.val ((cut_path c).take l ++ [i]) = 0 ∨
          ∃ m ≤ l, FailsAt (block_truncate_page c) (cut_path c) m) ∧
      ∀ m, FailsAt (block_truncate_page c) (cut_path c) m → T < m := by
  obtain ⟨hp, hval⟩ := block_truncate_page_cut c
  obtain ⟨T, hT, hcut, hfront, habove⟩ :=
    cut_body_cut (hp.treeOk hc) (block_to_path_isLeaf hc.geometry ho)
  obtain ⟨mtime, ctime, h⟩ := (gas_truncate_inode_eq c).2 ho
  refine ⟨T, hT, ?_, fun l x i hl hx hi => ?_, habove⟩
  · have h1 : Cut _ c (gas_truncate_inode c) :=
      (hp.trans hcut).retarget (by rw [h]; rfl) (by rw [h]; exact ⟨_, _, _, _, rfl⟩) (by rw [h]; rfl)
    refine h1.congr fun q hq =>
      through_congr ⟨?_, not_cutAt_nil ho⟩ (fun s _ => ⟨fun h => h.resolve_left id, Or.inr⟩) hq
    rintro (h | h)
    · exact h
    · exact not_cutAt_nil ho h
  · rw [← hval]
    exact hfront l x i hl hx hi

/-- **Every truncation is a cut**, of all slots that lead to a block past the end of file.  A path
that is refused lies behind all blocks, and then nothing is cut. -/
theorem gas_truncate_inode_is_cut {c : Ctx} (hc : TreeOk c) :
    ∃ Z, Cut Z c (gas_truncate_inode c) ∧
      ∀ b, first_cut_block c.v c.inode.i_size ≤ b → b < c.v.sbi.s_nblocks →
        Through Z (block_to_path c.v b) := by
  have hnil := block_to_path_eq_nil_iff hc.geometry.toGeometry
    (b := first_cut_block c.v c.inode.i_size)
  by_cases ho : cut_path c = []
  · refine ⟨fun _ => False, ?_, fun b hb hb' => ?_⟩
    · rw [(gas_truncate_inode_eq c).1 ho]
      exact (block_truncate_page_cut c).1
    · exact absurd (hnil.mp ho) (by omega)
  · obtain ⟨T, hT, h, -⟩ := gas_truncate_inode_cut hc ho
    refine ⟨_, h, fun b hb hb' => CutAt.of_rightOf hT ?_⟩
    rcases Nat.eq_or_lt_of_le hb with rfl | hlt
    · exact Or.inl rfl
    · exact Or.inr (rightOf_of_lt hc.geometry hlt hb')

/-- **No block at or past the end of file is mapped after a truncation**, whichever buffer reads
fail.  Their paths are the cut path or leave it to the right. -/
theorem truncate_clears {c : Ctx} (hc : TreeOk c) {b : Nat}
    (hb : first_cut_block c.v c.inode.i_size ≤ b) (hlt : b < c.v.sbi.s_nblocks) :
    (gas_truncate_inode c).val (block_to_path c.v b) = 0 := by
  obtain ⟨Z, h, hZ⟩ := gas_truncate_inode_is_cut hc
  have hne : block_to_path c.v b ≠ [] := fun e =>
    absurd ((block_to_path_eq_nil_iff hc.geometry.toGeometry).mp e) (by omega)
  exact h.val_of_through (block_to_path_isLeaf hc.geometry hne).1 (hZ b hb hlt)

/-- **A block in front of the end of file stays mapped as it was**, or it lies below a block that
`find_shared` could not read.  Its path leaves the cut path to the left, so it could only go with
the slot of the cut itself. -/
theorem truncate_keeps_or_fails {c : Ctx} (hc : TreeOk c) {b : Nat}
    (hb : b < first_cut_block c.v c.inode.i_size) (hlt : b < c.v.sbi.s_nblocks) :
    (gas_truncate_inode c).val (block_to_path c.v b) = c.val (block_to_path c.v b) ∨
      ∃ m, FailsAt (block_truncate_page c) (cut_path c) m ∧
        (cut_path c).take m <+: block_to_path c.v b := by
  have hnil : ∀ x : Nat, block_to_path c.v x = [] ↔ c.v.sbi.s_nblocks ≤ x := fun x =>
    block_to_path_eq_nil_iff hc.geometry.toGeometry
  have hne : block_to_path c.v b ≠ [] := fun e => absurd ((hnil b).mp e) (by omega)
  have hleaf := block_to_path_isLeaf hc.geometry hne
  by_cases ho : cut_path c = []
  · have h := block_truncate_page_cut c
    rw [(gas_truncate_inode_eq c).1 ho]
    exact Or.inl (h.2 _)
  · obtain ⟨T, hT, h, hfront, -⟩ := gas_truncate_inode_cut hc ho
    have hro : RightOf (block_to_path c.v b) (cut_path c) := by
      refine rightOf_of_lt hc.geometry hb ?_
      by_contra hge
      exact ho ((hnil _).mpr (by omega))
    by_cases ht : Through (CutAt (cut_path c) T) (block_to_path c.v b)
    · -- cut off through the slot on the path
      have htake := through_cutAt_of_left hro ht
      obtain ⟨l, x, y, hy, hx, hxy, hl⟩ := hro
      have hTl : T < l := by
        by_contra hge
        have h1 := congrArg (fun t => t[l]?) htake
        simp only [List.getElem?_take, if_pos (show l < T + 1 by omega), hx, hy] at h1
        exact absurd (Option.some.inj h1) (by omega)
      rcases hfront l y x hTl hy hxy with hz | ⟨m, hml, hm⟩
      · -- it was a hole already
        rw [hl, ← take_append_getElem hx] at hz
        rw [h.val_of_through hleaf.1 ht]
        have hlne : (block_to_path c.v b).take (l + 1) ≠ [] := List.ne_nil_of_length_pos (by
          have := (List.getElem?_eq_some_iff.mp hx).1
          rw [List.length_take]; omega)
        refine Or.inl ?_
        rw [← List.take_append_drop (l + 1) (block_to_path c.v b)]
        exact ((val_append hlne _).trans (by rw [← Ctx.val, hz, walk_zero])).symm
      · refine Or.inr ⟨m, hm, (List.take_prefix_take_left hml).trans ?_⟩
        rw [hl]
        exact List.take_prefix _ _
    · exact Or.inl (h.val_of_not hleaf.1 ht)

/-- **Every block in front of the end of file stays mapped as it was**, if the reads succeed. -/
theorem truncate_keeps {c : Ctx} (hc : TreeOk c) (hio : ∀ n, c.v.env.bread n = true) {b : Nat}
    (hb : b < first_cut_block c.v c.inode.i_size) (hlt : b < c.v.sbi.s_nblocks) :
    (gas_truncate_inode c).val (block_to_path c.v b) = c.val (block_to_path c.v b) := by
  refine (truncate_keeps_or_fails hc hb hlt).resolve_right ?_
  rintro ⟨m, hm, -⟩
  refine not_failsAt (fun n => ?_) _ _ hm
  rw [(block_truncate_page_cut c).1.vol.env]
  exact hio n

end GasFs
