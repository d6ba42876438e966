/-
# Trees of pointers in a block store

A store maps a block and an index to a pointer, `0` being the null pointer.  A forest hangs
off an array of root slots; slot `i` heads a tree of a fixed height, and every pointer slot of
the forest is named by a path: a root index followed by one index for each block passed.

`walk` follows a path from a pointer and `val` from the root slots, both reading `0` below a
null pointer.  Nothing here says what the blocks are for.  The lemmas are the ones a mutation
of such a forest needs:

* `val_eq_of_step`: the values of a forest are determined by its one-step equations, so a
  mutated forest is described by checking one equation for each path;
* `OneHolder`: every non-null pointer is stored in one slot only, the ownership discipline
  under which overwriting one block cannot disturb another tree;
* `val_prune`: zeroing slots removes exactly the paths that pass through them;
* `val_graft`: hanging a chain of new blocks below a hole fills exactly the slots on its path;
* `Region`: the pointers stored at and below a slot, with its disjointness consequences.

In C such a forest is a struct with an array of block numbers, and indirect blocks on the device;
the functions that walk it, free it and extend it work on raw blocks.  The lemmas here let one
reason about the slots by name instead, and the blocks appear only as values.

The store is one for all forests.  That writing a block for one forest leaves another as it was is
not a fact about the store but a consequence of disjoint regions: `walk_congr` and `region_congr`
say that a forest reads no block outside its region.
-/
import Mathlib.Data.Set.Lattice
import Mathlib.Order.CompletePartialOrder
import Mathlib.Data.Set.Insert
import Mathlib.Data.List.Infix
import Mathlib.Data.List.GetD
import Mathlib.Tactic.Common

namespace PtrTree

variable {B : Type} [Zero B] [DecidableEq B]

/-- The pointer reached from `p` by the indices of the path; `0` below a null pointer. -/
def walk (w : B → Nat → B) : B → List Nat → B
  | p, [] => p
  | p, j :: r => if p = 0 then 0 else walk w (w p j) r

@[simp] theorem walk_nil (w : B → Nat → B) (p : B) : walk w p [] = p := rfl

@[simp] theorem walk_zero (w : B → Nat → B) (r : List Nat) : walk w 0 r = 0 := by
  cases r <;> simp [walk]

theorem walk_cons {w : B → Nat → B} {p : B} (hp : p ≠ 0) (j : Nat) (r : List Nat) :
    walk w p (j :: r) = walk w (w p j) r := by
  simp [walk, hp]

theorem walk_append (w : B → Nat → B) (p : B) (r s : List Nat) :
    walk w p (r ++ s) = walk w (walk w p r) s := by
  induction r generalizing p with
  | nil => rfl
  | cons j r ih =>
    by_cases hp : p = 0
    · subst hp; simp
    · rw [List.cons_append, walk_cons hp, walk_cons hp, ih]

/-! ## 1. Forests

A path has at least one index, the root slot.  `height i` is the number of blocks that a path from
root slot `i` may pass, so a slot of height `0` holds a pointer to data. -/

/-- The shape of a forest: pointers in a block, root slots, and the height of the tree under
each root slot (how many blocks a path below it may pass). -/
structure Shape where
  fan : Nat
  roots : Nat
  height : Nat → Nat

/-- The relative paths below a slot of height `d`. -/
def IsBelow (fan d : Nat) (r : List Nat) : Prop := r.length ≤ d ∧ ∀ j ∈ r, j < fan

theorem IsBelow.nil (fan d : Nat) : IsBelow fan d [] := ⟨by simp, by simp⟩

theorem isBelow_cons {fan d j : Nat} {r : List Nat} :
    IsBelow fan (d + 1) (j :: r) ↔ j < fan ∧ IsBelow fan d r := by
  simp only [IsBelow, List.length_cons, Nat.add_le_add_iff_right, List.mem_cons, forall_eq_or_imp]
  tauto

theorem not_isBelow_zero_cons {fan j : Nat} {r : List Nat} : ¬IsBelow fan 0 (j :: r) := by
  simp [IsBelow]

theorem IsBelow.left {fan d : Nat} {r s : List Nat} (h : IsBelow fan d (r ++ s)) :
    IsBelow fan d r := by
  refine ⟨?_, fun j hj => h.2 j (List.mem_append_left _ hj)⟩
  have := h.1
  rw [List.length_append] at this
  omega

/-- The paths of the forest: one for each pointer slot. -/
def Shape.IsPath (S : Shape) : List Nat → Prop
  | [] => False
  | i :: r => i < S.roots ∧ IsBelow S.fan (S.height i) r

/-- The pointer in the slot that a path names. -/
def val (w : B → Nat → B) (a : Nat → B) : List Nat → B
  | [] => 0
  | i :: r => walk w (a i) r

@[simp] theorem val_root (w : B → Nat → B) (a : Nat → B) (i : Nat) : val w a [i] = a i := rfl

theorem Shape.IsPath.ne_nil {S : Shape} {q : List Nat} (h : S.IsPath q) : q ≠ [] := by
  rintro rfl; exact h

theorem Shape.IsPath.left {S : Shape} {q s : List Nat} (hq : q ≠ []) (h : S.IsPath (q ++ s)) :
    S.IsPath q := by
  cases q with
  | nil => exact absurd rfl hq
  | cons i r => exact ⟨h.1, h.2.left⟩

theorem val_append {w : B → Nat → B} {a : Nat → B} {q : List Nat} (hq : q ≠ []) (s : List Nat) :
    val w a (q ++ s) = walk w (val w a q) s := by
  cases q with
  | nil => exact absurd rfl hq
  | cons i r => exact walk_append w (a i) r s

theorem val_concat {w : B → Nat → B} {a : Nat → B} {q : List Nat} (hq : q ≠ []) (j : Nat) :
    val w a (q ++ [j]) = if val w a q = 0 then 0 else w (val w a q) j := by
  rw [val_append hq]
  by_cases h : val w a q = 0
  · simp [h]
  · rw [walk_cons h]; simp [h]

theorem val_ne_zero_left {w : B → Nat → B} {a : Nat → B} {q s : List Nat} (hq : q ≠ [])
    (h : val w a (q ++ s) ≠ 0) : val w a q ≠ 0 := by
  intro e
  rw [val_append hq, e, walk_zero] at h
  exact h rfl

/-- Below a null slot all slots are null. -/
theorem val_null_below {w : B → Nat → B} {a : Nat → B} {s q : List Nat} (hs : s ≠ [])
    (hz : val w a s = 0) (h : s <+: q) : val w a q = 0 := by
  obtain ⟨t, rfl⟩ := h
  rw [val_append hs, hz, walk_zero]

/-- **The one-step equations determine the forest.** A function on paths that starts at the root
slots and reads one more index through the store is `val`.  The induction is on the path from its
end, and each step uses one equation. -/
theorem val_eq_of_step {S : Shape} {w : B → Nat → B} {a : Nat → B} {f : List Nat → B}
    (h0 : ∀ i < S.roots, f [i] = a i)
    (hs : ∀ q j, S.IsPath (q ++ [j]) → q ≠ [] → f (q ++ [j]) = if f q = 0 then 0 else w (f q) j) :
    ∀ q, S.IsPath q → val w a q = f q := by
  intro q
  induction q using List.reverseRecOn with
  | nil => intro h; exact h.elim
  | append_singleton q j ih =>
    intro hq
    cases q with
    | nil => exact (h0 j hq.1).symm
    | cons i r =>
      have hne : i :: r ≠ [] := by simp
      rw [val_concat hne, ih (hq.left hne), hs _ j hq hne]

/-- Two stores that agree on every block a path can pass give the same values. -/
theorem val_congr {S : Shape} {w w' : B → Nat → B} {a : Nat → B}
    (h : ∀ q, S.IsPath q → val w a q ≠ 0 → ∀ j < S.fan, w' (val w a q) j = w (val w a q) j) :
    ∀ q, S.IsPath q → val w' a q = val w a q := by
  refine val_eq_of_step (fun _ _ => rfl) ?_
  intro q j hqj hq
  rw [val_concat hq]
  by_cases hz : val w a q = 0
  · simp [hz]
  · have hj : j < S.fan := by
      cases q with
      | nil => exact absurd rfl hq
      | cons i r => exact hqj.2.2 j (by simp)
    simp only [hz, if_false]
    exact (h q (hqj.left hq) hz j hj).symm

/-- They need to agree only where a path goes on, and on the root slots.  The contents of data
blocks do not matter, since no path reads a pointer in them. -/
theorem val_congr_inner {S : Shape} {w w' : B → Nat → B} {a a' : Nat → B}
    (ha : ∀ i < S.roots, a' i = a i)
    (h : ∀ q j, S.IsPath (q ++ [j]) → q ≠ [] → val w a q ≠ 0 →
      w' (val w a q) j = w (val w a q) j) :
    ∀ q, S.IsPath q → val w' a' q = val w a q := by
  refine val_eq_of_step (fun i hi => (ha i hi).symm) fun q j hqj hq => ?_
  rw [val_concat hq]
  by_cases hz : val w a q = 0
  · rw [if_pos hz, if_pos hz]
  · rw [if_neg hz, if_neg hz, h q j hqj hq hz]

/-! ## 2. One holder for each pointer

The discipline is about stored pointers, not about blocks reached: two slots with the same pointer
are forbidden even if one of them is never followed. -/

/-- Every non-null pointer of the forest is stored in one slot only. -/
def OneHolder (S : Shape) (w : B → Nat → B) (a : Nat → B) : Prop :=
  ∀ q q', S.IsPath q → S.IsPath q' → val w a q ≠ 0 → val w a q = val w a q' → q = q'

/-- A forest whose values are those of another one, or null, inherits the discipline.  So cutting a
tree cannot break it. -/
theorem OneHolder.of_sub {S : Shape} {w w' : B → Nat → B} {a a' : Nat → B}
    (h : OneHolder S w a) (hsub : ∀ q, S.IsPath q → val w' a' q = val w a q ∨ val w' a' q = 0) :
    OneHolder S w' a' := by
  intro q q' hq hq' hne he
  rcases hsub q hq with h1 | h1
  · rcases hsub q' hq' with h2 | h2
    · exact h q q' hq hq' (h1 ▸ hne) (by rw [← h1, ← h2, he])
    · exact absurd (he.trans h2) hne
  · exact absurd h1 hne

/-! ## 3. Pruning

A truncation zeroes a few slots and frees what hung below them.  The blocks freed may be reused and
overwritten at once, so the lemma asks nothing of them. -/

/-- A path is removed by the slots in `Z` when it passes through one of them. -/
def Through (Z : List Nat → Prop) (q : List Nat) : Prop := ∃ s, s <+: q ∧ Z s

theorem Through.extend {Z : List Nat → Prop} {q q' : List Nat} (h : Through Z q)
    (hp : q <+: q') : Through Z q' := by
  obtain ⟨s, hs, hz⟩ := h
  exact ⟨s, hs.trans hp, hz⟩

theorem through_concat {Z : List Nat → Prop} {q : List Nat} {j : Nat} :
    Through Z (q ++ [j]) ↔ Through Z q ∨ Z (q ++ [j]) := by
  constructor
  · rintro ⟨s, hs, hz⟩
    rcases List.prefix_concat_iff.mp hs with rfl | hs
    · exact Or.inr hz
    · exact Or.inl ⟨s, hs, hz⟩
  · rintro (h | h)
    · exact h.extend (List.prefix_append _ _)
    · exact ⟨_, List.prefix_refl _, h⟩

open Classical in
/-- **Zeroing slots removes exactly the paths through them.**  The blocks that are still
reached keep their other slots; what happens to blocks no longer reached does not matter. -/
theorem val_prune {S : Shape} {w w' : B → Nat → B} {a a' : Nat → B} {Z : List Nat → Prop}
    (hnil : ¬Z [])
    (h0 : ∀ i < S.roots, a' i = if Z [i] then 0 else a i)
    (hs : ∀ q j, S.IsPath (q ++ [j]) → q ≠ [] → ¬Through Z q → val w a q ≠ 0 →
      w' (val w a q) j = if Z (q ++ [j]) then 0 else w (val w a q) j) :
    ∀ q, S.IsPath q → val w' a' q = if Through Z q then 0 else val w a q := by
  refine val_eq_of_step ?_ ?_
  · intro i hi
    have : Through Z [i] ↔ Z [i] := by
      rw [← List.nil_append [i], through_concat]
      refine or_iff_right ?_
      rintro ⟨s, hs, hz⟩
      rw [List.prefix_nil.mp hs] at hz
      exact hnil hz
    rw [h0 i hi]
    simp [this]
  · intro q j hqj hq
    by_cases hT : Through Z q
    · simp [hT, through_concat]
    · rw [val_concat hq]
      by_cases hz : val w a q = 0
      · simp [hz]
      · simp only [hT, hz, if_false]
        rw [hs q j hqj hq hT hz]
        simp [through_concat, hT]

/-! ## 4. Grafting

The converse: an allocation prepares a chain of blocks in private and then stores one pointer.
Before that store the forest is as it was, after it all slots of the path are filled. -/

theorem take_of_pre {q o : List Nat} (h : q <+: o) : o.take q.length = q := by
  obtain ⟨t, rfl⟩ := h
  rw [List.take_append_of_le_length (le_refl _), List.take_length]

/-- One step further on a path. -/
theorem concat_prefix_iff {q o : List Nat} (h : q <+: o) {j : Nat} :
    q ++ [j] <+: o ↔ o[q.length]? = some j := by
  obtain ⟨t, rfl⟩ := h
  rw [List.getElem?_append_right (le_refl _), Nat.sub_self, List.prefix_append_right_inj]
  cases t with
  | nil => simp
  | cons x t => simp [List.cons_prefix_cons, eq_comm]

/-- **Hanging a chain of new blocks below a hole** fills the slots on the path and no others.
The chain `nb` starts in the slot at level `m` of the path `o`; each new block but the last holds
the next one and is otherwise null. -/
theorem val_graft {S : Shape} {w w' : B → Nat → B} {a a' : Nat → B} {o : List Nat} {m : Nat}
    {nb : List B} (hleaf : ∀ j, ¬S.IsPath (o ++ [j])) (hm : 1 ≤ m) (hmo : m ≤ o.length)
    (hlen : nb.length + m = o.length + 1) (hnb : (0 : B) ∉ nb) (hhole : val w a (o.take m) = 0)
    (hreach : ∀ q, q <+: o → q.length + 1 = m → q ≠ [] → val w a q ≠ 0)
    (hroot : ∀ i < S.roots, a' i = if [i] = o.take m then nb.getD 0 0 else a i)
    (hold : ∀ q j, S.IsPath (q ++ [j]) → q ≠ [] → val w a q ≠ 0 →
      w' (val w a q) j = if q ++ [j] = o.take m then nb.getD 0 0 else w (val w a q) j)
    (hnew : ∀ k x, k + 1 < nb.length → o[m + k]? = some x →
      ∀ j, w' (nb.getD k 0) j = if j = x then nb.getD (k + 1) 0 else 0) :
    ∀ q, S.IsPath q → val w' a' q =
      if q <+: o ∧ m ≤ q.length then nb.getD (q.length - m) 0 else val w a q := by
  have hget : ∀ k, k < nb.length → nb.getD k 0 ≠ 0 := fun k hk he => by
    rw [List.getD_eq_getElem _ _ hk] at he
    exact hnb (he ▸ List.getElem_mem hk)
  have hlm : (o.take m).length = m := by rw [List.length_take, min_eq_left hmo]
  -- at the level of the hole there is one slot of the path
  have htop : ∀ r : List Nat, r.length = m → (r <+: o ↔ r = o.take m) := by
    intro r hr
    constructor
    · intro h; rw [← hr, take_of_pre h]
    · rintro rfl; exact List.take_prefix _ _
  refine val_eq_of_step ?_ ?_
  · intro i hi
    rw [hroot i hi, val_root]
    by_cases h1 : m = 1
    · subst h1
      simp only [List.length_singleton, le_refl, and_true, Nat.sub_self, htop [i] rfl]
    · rw [if_neg, if_neg]
      · intro h
        have := congrArg List.length h
        rw [List.length_singleton, hlm] at this
        omega
      · rintro ⟨-, h⟩
        rw [List.length_singleton] at h
        omega
  · intro q j hqj hq
    have hl1 : (q ++ [j]).length = q.length + 1 := by simp
    by_cases hA : q <+: o ∧ m ≤ q.length
    · -- below the hole: the slots of the new blocks
      rw [if_pos hA]
      obtain ⟨hpre, hmq⟩ := hA
      have hqo : q.length < o.length := by
        refine lt_of_le_of_ne hpre.length_le fun he => ?_
        rw [hpre.eq_of_length he] at hqj
        exact hleaf j hqj
      have hx : o[m + (q.length - m)]? = some o[q.length] := by
        rw [Nat.add_sub_cancel' hmq, List.getElem?_eq_getElem hqo]
      have hstep : q ++ [j] <+: o ↔ j = o[q.length] := by
        rw [concat_prefix_iff hpre, List.getElem?_eq_getElem hqo, Option.some.injEq, eq_comm]
      rw [if_neg (hget _ (by omega)), hnew _ _ (by omega) hx, hl1,
        show q.length + 1 - m = q.length - m + 1 by omega]
      by_cases hj : j = o[q.length]
      · rw [if_pos ⟨hstep.mpr hj, by omega⟩, if_pos hj]
      · rw [if_neg fun h => hj (hstep.mp h.1), if_neg hj]
        refine val_null_below (List.ne_nil_of_length_pos (by omega)) hhole ?_
        refine List.IsPrefix.trans ?_ (List.prefix_append q [j])
        rw [← take_of_pre hpre]
        exact List.take_prefix_take_left hmq
    · rw [if_neg hA]
      -- a new slot that is on the path is the one with the hole
      have hon : q ++ [j] <+: o ∧ m ≤ (q ++ [j]).length ↔ q ++ [j] = o.take m := by
        constructor
        · rintro ⟨h1, h2⟩
          have hpre : q <+: o := (List.prefix_append q [j]).trans h1
          have hmq : ¬m ≤ q.length := fun h => hA ⟨hpre, h⟩
          exact (htop _ (by omega)).mp h1
        · intro h
          rw [h]
          exact And.intro ( List.take_prefix _ _) (le_of_eq hlm.symm)
      by_cases hz : val w a q = 0
      · rw [if_pos hz, if_neg]
        · exact val_null_below hq hz (List.prefix_append q [j])
        · intro h
          have h1 := congrArg List.length (hon.mp h)
          exact hreach q ((List.prefix_append q [j]).trans h.1) (by omega) hq hz
      · rw [if_neg hz, hold q j hqj hq hz, val_concat hq, if_neg hz]
        by_cases he : q ++ [j] = o.take m
        · have h1 := congrArg List.length he
          rw [if_pos he, if_pos (hon.mpr he), show (q ++ [j]).length - m = 0 by omega]
        · rw [if_neg he, if_neg (mt hon.mp he)]

/-! ## 5. The region below a slot

A region is a set of pointers.  With `Proper` it is the disjoint union of the pointer itself and the
regions of the slots in its block. -/

/-- The non-null pointers stored at and below a slot that holds `p` and has height `d`. -/
def Region (w : B → Nat → B) (fan d : Nat) (p : B) : Set B :=
  {b | b ≠ 0 ∧ ∃ r, IsBelow fan d r ∧ walk w p r = b}

/-- No pointer is stored twice below the slot. -/
def Proper (w : B → Nat → B) (fan d : Nat) (p : B) : Prop :=
  ∀ r r', IsBelow fan d r → IsBelow fan d r' → walk w p r ≠ 0 → walk w p r = walk w p r' → r = r'

theorem region_zero (w : B → Nat → B) (fan d : Nat) : Region w fan d (0 : B) = ∅ := by
  ext b
  simp only [Region, walk_zero, Set.mem_ofPred_eq, Set.mem_empty_iff_false, iff_false]
  rintro ⟨hb, _, _, rfl⟩
  exact hb rfl

theorem region_height_zero {w : B → Nat → B} {fan : Nat} {p : B} (hp : p ≠ 0) :
    Region w fan 0 p = {p} := by
  ext b
  simp only [Region, Set.mem_ofPred_eq, Set.mem_singleton_iff]
  constructor
  · rintro ⟨-, r, hr, rfl⟩
    cases r with
    | nil => rfl
    | cons j r => exact (not_isBelow_zero_cons hr).elim
  · rintro rfl
    exact ⟨hp, [], IsBelow.nil _ _, rfl⟩

theorem mem_region_succ {w : B → Nat → B} {fan d : Nat} {p : B} (hp : p ≠ 0) {b : B} :
    b ∈ Region w fan (d + 1) p ↔ b = p ∨ ∃ j < fan, b ∈ Region w fan d (w p j) := by
  constructor
  · rintro ⟨hb, r, hr, rfl⟩
    cases r with
    | nil => exact Or.inl rfl
    | cons j r =>
      obtain ⟨hj, hr⟩ := isBelow_cons.mp hr
      rw [walk_cons hp] at hb ⊢
      exact Or.inr ⟨j, hj, hb, r, hr, rfl⟩
  · rintro (rfl | ⟨j, hj, hb, r, hr, rfl⟩)
    · exact ⟨hp, [], IsBelow.nil _ _, rfl⟩
    · exact ⟨hb, j :: r, isBelow_cons.mpr ⟨hj, hr⟩, walk_cons hp j r⟩

theorem mem_region_self {w : B → Nat → B} {fan d : Nat} {p : B} (hp : p ≠ 0) :
    p ∈ Region w fan d p := ⟨hp, [], IsBelow.nil _ _, rfl⟩

theorem Proper.child {w : B → Nat → B} {fan d : Nat} {p : B} (h : Proper w fan (d + 1) p)
    (hp : p ≠ 0) {j : Nat} (hj : j < fan) : Proper w fan d (w p j) := by
  intro r r' hr hr' hne he
  have := h (j :: r) (j :: r') (isBelow_cons.mpr ⟨hj, hr⟩) (isBelow_cons.mpr ⟨hj, hr'⟩)
    (by rwa [walk_cons hp]) (by rwa [walk_cons hp, walk_cons hp])
  exact (List.cons.inj this).2

/-- Below a proper slot, different indices lead to disjoint regions: a pointer in both would have
two paths. -/
theorem Proper.disjoint {w : B → Nat → B} {fan d : Nat} {p : B} (h : Proper w fan (d + 1) p)
    (hp : p ≠ 0) {i j : Nat} (hi : i < fan) (hj : j < fan) (hij : i ≠ j) :
    Disjoint (Region w fan d (w p i)) (Region w fan d (w p j)) := by
  rw [Set.disjoint_left]
  rintro b ⟨hb, r, hr, rfl⟩ ⟨-, r', hr', he⟩
  have := h (i :: r) (j :: r') (isBelow_cons.mpr ⟨hi, hr⟩) (isBelow_cons.mpr ⟨hj, hr'⟩)
    (by rwa [walk_cons hp]) (by rw [walk_cons hp, walk_cons hp, he])
  exact hij (List.cons.inj this).1

/-- Below a proper slot, the block itself is not met again. -/
theorem Proper.notMem_child {w : B → Nat → B} {fan d : Nat} {p : B} (h : Proper w fan (d + 1) p)
    (hp : p ≠ 0) {j : Nat} (hj : j < fan) : p ∉ Region w fan d (w p j) := by
  rintro ⟨-, r, hr, he⟩
  have := h [] (j :: r) (IsBelow.nil _ _) (isBelow_cons.mpr ⟨hj, hr⟩) hp
    (by rw [walk_cons hp, he]; rfl)
  simp at this

/-- Walks below a slot only read blocks of its region, so a store that agrees there gives the same
walk. -/
theorem walk_congr {w w' : B → Nat → B} {fan : Nat} : ∀ {d : Nat} {p : B},
    (∀ b ∈ Region w fan d p, ∀ j < fan, w' b j = w b j) → ∀ {r : List Nat}, IsBelow fan d r →
      walk w' p r = walk w p r
  | _, _, _, [], _ => rfl
  | 0, _, _, _ :: _, hr => (not_isBelow_zero_cons hr).elim
  | d + 1, p, h, j :: r, hr => by
    obtain ⟨hj, hr⟩ := isBelow_cons.mp hr
    by_cases hp : p = 0
    · subst hp; simp
    · rw [walk_cons hp, walk_cons hp, h p (mem_region_self hp) j hj]
      exact walk_congr (d := d)
        (fun b hb k hk => h b ((mem_region_succ hp).mpr (Or.inr ⟨j, hj, hb⟩)) k hk) hr

/-- The region of a slot is read from the blocks of that region. -/
theorem region_congr {w w' : B → Nat → B} {fan d : Nat} {p : B}
    (h : ∀ b ∈ Region w fan d p, ∀ j < fan, w' b j = w b j) :
    Region w' fan d p = Region w fan d p := by
  ext b
  constructor
  · rintro ⟨hb, r, hr, rfl⟩
    exact ⟨hb, r, hr, (walk_congr h hr).symm⟩
  · rintro ⟨hb, r, hr, rfl⟩
    exact ⟨hb, r, hr, walk_congr h hr⟩

theorem Proper.congr {w w' : B → Nat → B} {fan d : Nat} {p : B} (hP : Proper w fan d p)
    (h : ∀ b ∈ Region w fan d p, ∀ j < fan, w' b j = w b j) : Proper w' fan d p := by
  intro r r' hr hr' hne he
  rw [walk_congr h hr] at hne he
  rw [walk_congr h hr'] at he
  exact hP r r' hr hr' hne he

end PtrTree
