/-
# Numbered leaves of trees of growing height

`direct` leaves hang off root slots of their own.  The next root slot heads a tree of one level, with
`N` leaves, the one behind it a tree of two levels, and so on for `h` slots; the leaves are numbered in
this order.  `path` names the way to a leaf: the root slot, then one index for each level.

The path of a leaf behind the direct ones is the path of its parent and an index, and the parents are
again the leaves of such a forest, with one direct leaf and one slot less.  So every fact is an
induction on `h` with one step: different leaves have different paths (`path_inj`), no path goes on
from another one (`path_antichain`), the numbering follows the order of the paths (`path_lt_iff`) and
leaves none out (`isLeaf_iff`), and the inner nodes above the first `n` leaves are counted by rounded
divisions (`inner_card`).

The instance everybody knows is the inode of a Unix file system: a few direct pointers, then a
single indirect one, a double and a triple one.  The numbering of its leaves is the numbering of the
blocks of a file, the inner nodes are its indirect blocks, and `inner_card` is the number of these
that a file of `n` blocks needs.

The order matters for cutting: a tree is cut at a leaf by removing every path behind it, and
`path_lt_iff` says that these are the leaves with larger numbers.
-/
import Mathlib.Data.Finset.Card
import Mathlib.Data.Finset.Union
import Mathlib.Data.List.Infix
import Mathlib.Tactic.Common

namespace LevelTree

/-! ## 1. Paths

A path is a list of indices, the first of which is a root slot.  Nothing is said about where the
nodes are kept. -/

/-- The path of leaf `x`, from the root slot `root` on.  The forest has `h` trees besides its direct
leaves; behind the direct leaves the parent of leaf `x` is leaf `(x - direct) / N` of the forest of
parents. -/
def path (N : Nat) : Nat → Nat → Nat → Nat → List Nat
  | 0, root, _, x => [root + x]
  | h + 1, root, direct, x =>
    if x < direct then [root + x]
    else path N h (root + direct) 1 ((x - direct) / N) ++ [(x - direct) % N]

variable {N : Nat}

/-- A direct leaf. -/
theorem path_direct {h root direct x : Nat} (hx : x < direct) : path N h root direct x = [root + x] := by
  cases h with
  | zero => rfl
  | succ h => exact if_pos hx

/-- A leaf below its parent. -/
theorem path_below {h root direct x : Nat} (hx : direct ≤ x) :
    path N (h + 1) root direct x =
      path N h (root + direct) 1 ((x - direct) / N) ++ [(x - direct) % N] :=
  if_neg (Nat.not_lt.mpr hx)

theorem path_ne_nil (h root direct x : Nat) : path N h root direct x ≠ [] := by
  cases h with
  | zero => exact List.cons_ne_nil _ _
  | succ h =>
    rw [path]
    split
    · exact List.cons_ne_nil _ _
    · exact List.append_ne_nil_of_right_ne_nil _ (List.cons_ne_nil _ _)

/-- A path begins at a root slot of the forest. -/
theorem exists_path_eq_cons : ∀ (h root direct x : Nat),
    ∃ i r, path N h root direct x = i :: r ∧ root ≤ i ∧ (direct ≤ x → root + direct ≤ i) := by
  intro h
  induction h with
  | zero => exact fun root direct x => ⟨root + x, [], rfl, by omega, by omega⟩
  | succ h ih =>
    intro root direct x
    rcases Nat.lt_or_ge x direct with hlt | hge
    · exact ⟨root + x, [], path_direct hlt, by omega, by omega⟩
    · obtain ⟨i, r, he, hi, -⟩ := ih (root + direct) 1 ((x - direct) / N)
      rw [path_below hge, he]
      exact ⟨i, r ++ [(x - direct) % N], rfl, by omega, fun _ => hi⟩

/-- **No path goes on from another one**: a leaf is not an inner node of another leaf's tree.  Two
direct leaves differ in their only index, a direct leaf and one below differ in the root slot, and
for two below the parents decide, by induction, or the last index does. -/
theorem path_antichain : ∀ {h root direct x y : Nat},
    path N h root direct x <+: path N h root direct y → x = y := by
  intro h
  induction h with
  | zero =>
    intro root direct x y hp
    obtain ⟨he, -⟩ := List.cons_prefix_cons.mp hp
    omega
  | succ h ih =>
    intro root direct x y hp
    obtain ⟨i, r, hx, -, hix⟩ := exists_path_eq_cons (N := N) (h + 1) root direct x
    obtain ⟨j, s, hy, -, hjy⟩ := exists_path_eq_cons (N := N) (h + 1) root direct y
    have hij : i = j := by
      rw [hx, hy] at hp
      exact (List.cons_prefix_cons.mp hp).1
    rcases Nat.lt_or_ge x direct with hlt | hge
    · rw [path_direct hlt] at hx
      obtain rfl := List.head_eq_of_cons_eq hx
      rcases Nat.lt_or_ge y direct with hlt' | hge'
      · rw [path_direct hlt'] at hy
        obtain rfl := List.head_eq_of_cons_eq hy
        omega
      · have := hjy hge'
        omega
    · rcases Nat.lt_or_ge y direct with hlt' | hge'
      · rw [path_direct hlt'] at hy
        obtain rfl := List.head_eq_of_cons_eq hy
        have := hix hge
        omega
      · rw [path_below hge, path_below hge'] at hp
        rcases List.prefix_concat_iff.mp hp with he | hlong
        · obtain ⟨hpar, hmod⟩ := List.append_inj' he rfl
          have hdiv := ih ⟨[], (List.append_nil _).trans hpar⟩
          rw [List.singleton_inj] at hmod
          have hxd := Nat.div_add_mod (x - direct) N
          have hyd := Nat.div_add_mod (y - direct) N
          rw [hdiv, hmod, hyd] at hxd
          omega
        · -- the parent of `x` would be shorter than itself
          have hpar := ih ((List.prefix_append _ _).trans hlong)
          rw [hpar] at hlong
          have hlen := hlong.length_le
          rw [List.length_append, List.length_singleton] at hlen
          omega

/-- **Different leaves have different paths.** -/
theorem path_inj {h root direct x y : Nat} (he : path N h root direct x = path N h root direct y) :
    x = y :=
  path_antichain ⟨[], (List.append_nil _).trans he⟩

/-! ## 2. Order

The order on paths is the lexicographic one of `List`, in which a list comes before every list that
goes on from it.  By `path_antichain` that case does not occur between two leaves. -/

/-- What is appended does not change the order of two lists of which neither goes on from the other. -/
theorem append_lt_append {a b : List Nat} (h : a < b) (hpre : ¬a <+: b) (s t : List Nat) :
    a ++ s < b ++ t := by
  rcases List.lt_iff_exists.mp h with ⟨htake, -⟩ | ⟨i, h1, h2, heq, hlt⟩
  · exact absurd (htake ▸ List.take_prefix a.length b) hpre
  · refine List.lt_iff_exists.mpr (Or.inr ⟨i, ?_, ?_, fun j hj => ?_, ?_⟩)
    · rw [List.length_append]
      omega
    · rw [List.length_append]
      omega
    · rw [List.getElem_append_left (by omega), List.getElem_append_left (by omega)]
      exact heq j hj
    · rw [List.getElem_append_left h1, List.getElem_append_left h2]
      exact hlt

/-- **The leaves are numbered in the lexicographic order of their paths.** If the parents differ,
the order of the parents decides, and by `path_antichain` appending an index does not disturb it. -/
theorem path_lt : ∀ {h root direct x y : Nat}, x < y →
    path N h root direct x < path N h root direct y := by
  intro h
  induction h with
  | zero =>
    intro root direct x y hxy
    exact List.cons_lt_cons_iff.mpr (Or.inl (by omega))
  | succ h ih =>
    intro root direct x y hxy
    rcases Nat.lt_or_ge y direct with hy | hy
    · rw [path_direct hy, path_direct (Nat.lt_trans hxy hy)]
      exact List.cons_lt_cons_iff.mpr (Or.inl (by omega))
    · rcases Nat.lt_or_ge x direct with hx | hx
      · obtain ⟨i, r, he, -, hi⟩ := exists_path_eq_cons (N := N) (h + 1) root direct y
        have hroot := hi hy
        rw [path_direct hx, he]
        exact List.cons_lt_cons_iff.mpr (Or.inl (by omega))
      · rw [path_below hx, path_below hy]
        -- the parents are in order, or the same
        rcases Nat.lt_or_eq_of_le (Nat.div_le_div_right (Nat.sub_le_sub_right (Nat.le_of_lt hxy) direct)
          : (x - direct) / N ≤ (y - direct) / N) with hlt | heq
        · refine append_lt_append (ih hlt) (fun hpre => ?_) _ _
          exact absurd (path_antichain hpre) (Nat.ne_of_lt hlt)
        · rw [heq]
          refine List.append_left_lt (List.cons_lt_cons_iff.mpr (Or.inl ?_))
          have hxd := Nat.div_add_mod (x - direct) N
          have hyd := Nat.div_add_mod (y - direct) N
          rw [heq] at hxd
          omega

theorem path_lt_iff {h root direct x y : Nat} :
    path N h root direct x < path N h root direct y ↔ x < y := by
  refine ⟨fun hlt => ?_, path_lt⟩
  rcases Nat.lt_trichotomy x y with hxy | rfl | hxy
  · exact hxy
  · exact absurd hlt (List.lt_irrefl _)
  · exact absurd (List.lt_trans hlt (path_lt hxy)) (List.lt_irrefl _)

/-- The leaves there is room for. -/
def capacity (N : Nat) : Nat → Nat → Nat
  | 0, direct => direct
  | h + 1, direct => direct + N * capacity N h 1

/-- A root slot of its own, or an index below a leaf of the forest of parents. -/
def IsLeaf (N : Nat) : Nat → Nat → Nat → List Nat → Prop
  | 0, root, direct, q => ∃ i < direct, q = [root + i]
  | h + 1, root, direct, q =>
    (∃ i < direct, q = [root + i]) ∨ ∃ p, IsLeaf N h (root + direct) 1 p ∧ ∃ j < N, q = p ++ [j]

/-- **Every leaf has a number** below the capacity, and the paths of these numbers are leaves.  So
the numbering is onto, and `path` is a bijection between numbers and leaves. -/
theorem isLeaf_iff (hN : 0 < N) : ∀ {h root direct : Nat} {q : List Nat},
    IsLeaf N h root direct q ↔ ∃ x < capacity N h direct, path N h root direct x = q := by
  intro h
  induction h with
  | zero =>
    intro root direct q
    constructor
    · rintro ⟨i, hi, rfl⟩
      exact ⟨i, hi, rfl⟩
    · rintro ⟨i, hi, rfl⟩
      exact ⟨i, hi, rfl⟩
  | succ h ih =>
    intro root direct q
    constructor
    · rintro (⟨i, hi, rfl⟩ | ⟨p, hp, j, hj, rfl⟩)
      · exact ⟨i, Nat.lt_of_lt_of_le hi (Nat.le_add_right _ _), path_direct hi⟩
      · obtain ⟨x, hx, rfl⟩ := ih.mp hp
        have hsub : direct + (N * x + j) - direct = N * x + j := Nat.add_sub_cancel_left _ _
        refine ⟨direct + (N * x + j), Nat.add_lt_add_left ?_ _, ?_⟩
        · calc N * x + j < N * x + N := Nat.add_lt_add_left hj _
            _ = N * (x + 1) := (Nat.mul_succ N x).symm
            _ ≤ N * capacity N h 1 := Nat.mul_le_mul_left N hx
        · rw [path_below (Nat.le_add_right _ _), hsub, Nat.mul_add_div hN, Nat.div_eq_of_lt hj,
            Nat.add_zero, Nat.mul_add_mod, Nat.mod_eq_of_lt hj]
    · rintro ⟨x, hx, rfl⟩
      rcases Nat.lt_or_ge x direct with hlt | hge
      · exact Or.inl ⟨x, hlt, path_direct hlt⟩
      · refine Or.inr ⟨_, ih.mpr ⟨(x - direct) / N, ?_, rfl⟩, (x - direct) % N, Nat.mod_lt _ hN,
          path_below hge⟩
        rw [capacity] at hx
        exact Nat.div_lt_of_lt_mul (by omega)

/-! ## 3. Inner nodes

An inner node is named by the path to it, that is, by a proper prefix of the path of a leaf.
Different paths share prefixes, so the inner nodes above a set of leaves are a union and not a
sum. -/

/-- The nodes a path passes on its way: what comes before its end, without the empty path. -/
def above (q : List Nat) : Finset (List Nat) := q.inits.toFinset.filter fun s => s ≠ [] ∧ s ≠ q

theorem mem_above {q s : List Nat} : s ∈ above q ↔ s <+: q ∧ s ≠ [] ∧ s ≠ q := by
  rw [above, Finset.mem_filter, List.mem_toFinset, List.mem_inits]

theorem above_singleton (i : Nat) : above [i] = ∅ := by
  refine Finset.eq_empty_of_forall_notMem fun s hs => ?_
  obtain ⟨hp, hne, hself⟩ := mem_above.mp hs
  cases s with
  | nil => exact hne rfl
  | cons j r =>
    obtain ⟨rfl, hr⟩ := List.cons_prefix_cons.mp hp
    rw [List.prefix_nil] at hr
    exact hself (by rw [hr])

/-- Above a leaf lie its parent and what lies above that. -/
theorem above_concat {p : List Nat} (hp : p ≠ []) (i : Nat) : above (p ++ [i]) = insert p (above p) := by
  ext s
  rw [Finset.mem_insert, mem_above, mem_above, List.prefix_concat_iff]
  constructor
  · rintro ⟨he | hpre, hne, hself⟩
    · exact absurd he hself
    · rcases eq_or_ne s p with rfl | hsp
      · exact Or.inl rfl
      · exact Or.inr ⟨hpre, hne, hsp⟩
  · have hlong : ∀ s, s <+: p → s ≠ p ++ [i] := fun s hs he => by
      have hlen := hs.length_le
      rw [he, List.length_append, List.length_singleton] at hlen
      omega
    rintro (rfl | ⟨hpre, hne, -⟩)
    · exact ⟨Or.inr List.prefix_rfl, hp, hlong _ List.prefix_rfl⟩
    · exact ⟨Or.inr hpre, hne, hlong _ hpre⟩

/-- The inner nodes above the first `n` leaves. -/
def inner (N h root direct n : Nat) : Finset (List Nat) :=
  (Finset.range n).biUnion fun x => above (path N h root direct x)

theorem mem_inner {h root direct n : Nat} {s : List Nat} :
    s ∈ inner N h root direct n ↔ ∃ x < n, s ∈ above (path N h root direct x) := by
  simp only [inner, Finset.mem_biUnion, Finset.mem_range]

/-- How many parents the leaves behind the direct ones have. -/
def parents (N direct n : Nat) : Nat := (n - direct + (N - 1)) / N

theorem lt_parents_iff (hN : 0 < N) {direct n p : Nat} :
    p < parents N direct n ↔ ∃ x, direct ≤ x ∧ x < n ∧ (x - direct) / N = p := by
  rw [parents, Nat.lt_iff_add_one_le, Nat.le_div_iff_mul_le hN, Nat.add_mul, Nat.one_mul]
  constructor
  · intro hle
    refine ⟨direct + p * N, Nat.le_add_right _ _, by omega, ?_⟩
    rw [Nat.add_sub_cancel_left, Nat.mul_div_cancel _ hN]
  · rintro ⟨x, hd, hn, rfl⟩
    have hx := Nat.div_mul_le_self (x - direct) N
    omega

theorem parents_of_le (hN : 0 < N) {direct n : Nat} (h : n ≤ direct) : parents N direct n = 0 := by
  rw [parents, Nat.sub_eq_zero_of_le h, Nat.zero_add]
  exact Nat.div_eq_of_lt (by omega)

theorem parents_le (hN : 0 < N) (direct n : Nat) : parents N direct n ≤ n - direct := by
  by_contra hlt
  obtain ⟨x, hd, hn, he⟩ := (lt_parents_iff hN).mp (Nat.not_le.mp hlt)
  have := Nat.div_le_self (x - direct) N
  omega

/-- **The inner nodes** are the parents of the leaves and the inner nodes above those.  This is the
recursion that the count follows. -/
theorem inner_succ (hN : 0 < N) (h root direct n : Nat) :
    inner N (h + 1) root direct n =
      (Finset.range (parents N direct n)).image (path N h (root + direct) 1) ∪
        inner N h (root + direct) 1 (parents N direct n) := by
  ext s
  rw [Finset.mem_union, Finset.mem_image, mem_inner, mem_inner]
  constructor
  · rintro ⟨x, hx, hs⟩
    rcases Nat.lt_or_ge x direct with hlt | hge
    · rw [path_direct hlt, above_singleton] at hs
      exact absurd hs (Finset.notMem_empty s)
    · rw [path_below hge, above_concat (path_ne_nil _ _ _ _), Finset.mem_insert] at hs
      have hp := (lt_parents_iff hN).mpr ⟨x, hge, hx, rfl⟩
      rcases hs with rfl | hs
      · exact Or.inl ⟨_, Finset.mem_range.mpr hp, rfl⟩
      · exact Or.inr ⟨_, hp, hs⟩
  · have hleaf : ∀ p < parents N direct n, ∃ x < n,
        above (path N (h + 1) root direct x) =
          insert (path N h (root + direct) 1 p) (above (path N h (root + direct) 1 p)) := by
      intro p hp
      obtain ⟨x, hge, hx, rfl⟩ := (lt_parents_iff hN).mp hp
      exact ⟨x, hx, by rw [path_below hge, above_concat (path_ne_nil _ _ _ _)]⟩
    rintro (⟨p, hp, rfl⟩ | ⟨p, hp, hs⟩)
    · obtain ⟨x, hx, he⟩ := hleaf p (Finset.mem_range.mp hp)
      exact ⟨x, hx, by rw [he]; exact Finset.mem_insert_self _ _⟩
    · obtain ⟨x, hx, he⟩ := hleaf p hp
      exact ⟨x, hx, by rw [he]; exact Finset.mem_insert_of_mem hs⟩

/-- The number of inner nodes above the first `n` leaves, level by level. -/
def inner_count (N : Nat) : Nat → Nat → Nat → Nat
  | 0, _, _ => 0
  | h + 1, direct, n => parents N direct n + inner_count N h 1 (parents N direct n)

/-- **Counting by rounded divisions.** At each level the parents of the first `n` leaves are the
first `parents N direct n` leaves of the forest of parents, and the two parts of `inner_succ` are
disjoint, since one has leaves of that forest and the other its inner nodes. -/
theorem inner_card (hN : 0 < N) : ∀ (h root direct n : Nat),
    (inner N h root direct n).card = inner_count N h direct n := by
  intro h
  induction h with
  | zero =>
    intro root direct n
    refine Finset.card_eq_zero.mpr (Finset.eq_empty_of_forall_notMem fun s hs => ?_)
    obtain ⟨x, -, hs⟩ := mem_inner.mp hs
    rw [path, above_singleton] at hs
    exact Finset.notMem_empty s hs
  | succ h ih =>
    intro root direct n
    have hdisj : Disjoint
        ((Finset.range (parents N direct n)).image (path N h (root + direct) 1))
        (inner N h (root + direct) 1 (parents N direct n)) := by
      rw [Finset.disjoint_left]
      intro s hs hin
      obtain ⟨p, -, rfl⟩ := Finset.mem_image.mp hs
      obtain ⟨p', -, hab⟩ := mem_inner.mp hin
      obtain ⟨hpre, -, hne⟩ := mem_above.mp hab
      exact hne (by rw [path_antichain hpre])
    rw [inner_succ hN, Finset.card_union_of_disjoint hdisj, ih,
      Finset.card_image_of_injective _ fun _ _ he => path_inj he, Finset.card_range, inner_count]

theorem inner_count_of_le (hN : 0 < N) : ∀ (h : Nat) {direct n : Nat}, n ≤ direct →
    inner_count N h direct n = 0 := by
  intro h
  induction h with
  | zero => exact fun _ => rfl
  | succ h ih =>
    intro direct n hle
    rw [inner_count, parents_of_le hN hle, ih (Nat.zero_le 1)]

/-- With two leaves or more to a node there are fewer inner nodes than leaves.  So the count of
leaves and inner nodes together is below twice the number of leaves, which is how an overflow is
excluded. -/
theorem inner_count_le (hN : 2 ≤ N) : ∀ (h : Nat) {direct : Nat} (n : Nat), 1 ≤ direct →
    inner_count N h direct n ≤ n - 1 := by
  intro h
  induction h with
  | zero => exact fun n _ => Nat.zero_le _
  | succ h ih =>
    intro direct n hd
    have hrest := ih (parents N direct n) (Nat.le_refl 1)
    have hmul : parents N direct n * 2 ≤ n - direct + 1 := by
      have hle := Nat.div_mul_le_self (n - direct + (N - 1)) N
      rw [← parents] at hle
      generalize parents N direct n = m at hle
      cases m with
      | zero => exact Nat.zero_le _
      | succ m =>
        have hm := Nat.mul_le_mul_left m hN
        rw [Nat.succ_mul] at hle
        omega
    rw [inner_count]
    omega

end LevelTree
