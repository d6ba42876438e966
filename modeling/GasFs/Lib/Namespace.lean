/-
# Namespaces with counted links

A namespace is a set of objects, some of them directories, and a partial map from places to
objects: a place is a directory and a label in it.  Every directory holds itself under `dot` and
its parent under `dotdot`; the other entries are names.  An object carries the number of its
links, and goes away when that number is `0`.

`Tree` is what a namespace should be: the link counts are the numbers of places that hold the
object, every directory but the root has one name, held by the directory it has under `dotdot`,
and following `dotdot` leads to the root.  The six steps of `Step` are those of any file system
with hard links to files and none to directories, and `Tree.step` says that they keep it.

The counts follow from two lemmas about one place (`encard_refs_bind`, `encard_refs_unbind`); a
step is a few of them after each other.

Nothing here is finite: the counts are `Set.encard` of sets of places, and that they are finite is
part of `counted`, which equates them with numbers.  Labels and objects are arbitrary types.

`Step` says what may happen, `Act` and `Does` what is asked and what is done about it.  The
difference matters for a statement about a program: `Trace` records the requests, so that a program
which answers "done" and does something else is not covered by it.  `Does.step` leads from one to
the other, and with `Tree.step` every trace that starts in a tree stays one.
-/
import Mathlib.Data.Set.Card
import Mathlib.Logic.Relation

namespace Namespace

variable {α L : Type}

/-! ## 1. Spaces

`dot` and `dotdot` are labels like others, with a fixed meaning.  They count as places, so a
directory has two links more than it has subdirectories, as everywhere under Unix. -/

/-- The link counts of the objects in use, the directories, and what is held under each label. -/
structure Space (α L : Type) where
  nlink : α → Option Nat
  dirs : Set α
  entry : α × L → Option α

/-- The places that hold an object. -/
def refs (E : α × L → Option α) (x : α) : Set (α × L) := {q | E q = some x}

/-- The place holds the object under a name. -/
def Names (dot dotdot : L) (E : α × L → Option α) (q : α × L) (x : α) : Prop :=
  E q = some x ∧ q.2 ≠ dot ∧ q.2 ≠ dotdot

/-- The parent of a directory. -/
def Up (dotdot : L) (E : α × L → Option α) (x p : α) : Prop := E (x, dotdot) = some p

/-- A rooted tree of directories with exact link counts.  `rooted` is the statement that following
`dotdot` ends: every directory reaches the root in finitely many steps, so there are no cycles
beside the tree. -/
structure Tree (dot dotdot : L) (root : α) (s : Space α L) : Prop where
  root_dir : root ∈ s.dirs
  root_up : Up dotdot s.entry root root
  root_names : ∀ q, ¬Names dot dotdot s.entry q root
  inside : ∀ q x, s.entry q = some x → q.1 ∈ s.dirs
  counted : ∀ x, (refs s.entry x).encard = ((s.nlink x).getD 0 : Nat)
  self : ∀ x ∈ s.dirs, s.entry (x, dot) = some x
  parent : ∀ x ∈ s.dirs, ∃ p ∈ s.dirs, Up dotdot s.entry x p
  /-- the one name of a directory -/
  named : ∀ x ∈ s.dirs, x ≠ root → ∃ q, Names dot dotdot s.entry q x ∧ Up dotdot s.entry x q.1 ∧
    ∀ q', Names dot dotdot s.entry q' x → q' = q
  rooted : ∀ x ∈ s.dirs, Relation.ReflTransGen (Up dotdot s.entry) x root

/-! ## 2. Counting

Every step of a namespace writes a few places, and each place written changes one count by one. -/

section Counting

variable [DecidableEq α] [DecidableEq L]

/-- **Binding a free place adds one place to its object**, and none to the others. -/
theorem encard_refs_bind {E : α × L → Option α} {q : α × L} {x : α} (h : E q = none) (y : α) :
    (refs (Function.update E q (some x)) y).encard =
      (refs E y).encard + if x = y then 1 else 0 := by
  by_cases hxy : x = y
  · subst hxy
    have hset : refs (Function.update E q (some x)) x = insert q (refs E x) := by
      ext r
      by_cases hr : r = q
      · simp [refs, hr]
      · simp [refs, hr]
    have hnot : q ∉ refs E x := by simp [refs, h]
    rw [hset, Set.encard_insert_of_notMem hnot, if_pos rfl]
  · have hset : refs (Function.update E q (some x)) y = refs E y := by
      ext r
      by_cases hr : r = q
      · simp [refs, hr, h, hxy]
      · simp [refs, hr]
    rw [hset, if_neg hxy, add_zero]

/-- **Freeing a place takes one place from its object**, and none from the others. -/
theorem encard_refs_unbind {E : α × L → Option α} {q : α × L} {x : α} (h : E q = some x) (y : α) :
    (refs E y).encard =
      (refs (Function.update E q none) y).encard + if x = y then 1 else 0 := by
  have hE : E = Function.update (Function.update E q none) q (some x) := by
    rw [Function.update_idem, ← h, Function.update_eq_self]
  conv_lhs => rw [hE]
  exact encard_refs_bind (Function.update_self q none E) y

/-- **Moving an object from one place to another** leaves all counts as they are. -/
theorem encard_refs_move {E : α × L → Option α} {q r : α × L} {x : α} (hq : E q = none)
    (hr : E r = some x) (y : α) :
    (refs (Function.update (Function.update E q (some x)) r none) y).encard = (refs E y).encard := by
  have hqr : r ≠ q := by
    rintro rfl
    rw [hr] at hq
    exact absurd hq (by simp)
  have hadd := encard_refs_bind (x := x) hq y
  have hdel := encard_refs_unbind (x := x) ((Function.update_of_ne hqr (some x) E).trans hr) y
  rw [hadd] at hdel
  refine ENat.add_left_injective_of_ne_top (n := if x = y then 1 else 0) ?_ hdel.symm
  split <;> simp

end Counting

theorem enat_eq_sub {e : ℕ∞} {n k : Nat} (h : (n : ℕ∞) = e + (k : ℕ∞)) :
    e = ((n - k : Nat) : ℕ∞) := by
  cases e with
  | top => simp at h
  | coe m =>
    have hm : n = m + k := by exact_mod_cast h
    rw [hm, Nat.add_sub_cancel]

/-! ## 3. Steps

A new directory gets its own `dot` and `dotdot` in the same step, and a directory that is removed
loses them.  In between, a program may well have states that are no trees; those are its own
affair. -/

section Steps

variable [DecidableEq α] [DecidableEq L] (dot dotdot : L)

/-- The steps of a namespace. -/
inductive Step (s : Space α L) : Space α L → Prop
  /-- a file, new or old, is entered under a free label -/
  | bind {p x : α} {l : L} (hp : p ∈ s.dirs) (hl : s.entry (p, l) = none) (hx : x ∉ s.dirs) :
      Step s { s with
        nlink := Function.update s.nlink x (some ((s.nlink x).getD 0 + 1))
        entry := Function.update s.entry (p, l) (some x) }
  /-- a new directory is entered under a free label -/
  | mkdir {p x : α} {l : L} (hp : p ∈ s.dirs) (hl : s.entry (p, l) = none)
      (hx : s.nlink x = none) :
      Step s {
        nlink := Function.update (Function.update s.nlink x (some 2)) p
          ((s.nlink p).map (· + 1))
        dirs := insert x s.dirs
        entry := Function.update (Function.update (Function.update s.entry (x, dot) (some x))
          (x, dotdot) (some p)) (p, l) (some x) }
  /-- an entry of a file goes -/
  | unlink {p x : α} {l : L} (hl : s.entry (p, l) = some x) (hx : x ∉ s.dirs) :
      Step s { s with
        nlink := Function.update s.nlink x ((s.nlink x).map (· - 1))
        entry := Function.update s.entry (p, l) none }
  /-- a directory that holds only itself and its parent goes -/
  | rmdir {p x : α} {l : L} (hl : Names dot dotdot s.entry (p, l) x) (hx : x ∈ s.dirs)
      (hempty : ∀ l', s.entry (x, l') ≠ none → l' = dot ∨ l' = dotdot) :
      Step s {
        nlink := Function.update (Function.update s.nlink x ((s.nlink x).map (· - 2))) p
          ((s.nlink p).map (· - 1))
        dirs := s.dirs \ {x}
        entry := Function.update (Function.update (Function.update s.entry (p, l) none)
          (x, dot) none) (x, dotdot) none }
  /-- an object without links goes -/
  | drop {x : α} (hx : s.nlink x = some 0) :
      Step s { s with nlink := Function.update s.nlink x none }

end Steps

/-! ## 4. A tree stays a tree

First what a tree says about a single object, then one section for the steps on files and one for
those on directories. -/

section Keep

variable {dot dotdot : L} {root : α} {s : Space α L}

/-- What is held somewhere is in use. -/
theorem Tree.used (h : Tree dot dotdot root s) {q : α × L} {x : α} (hq : s.entry q = some x) :
    ∃ n, s.nlink x = some (n + 1) := by
  have hne : (refs s.entry x).encard ≠ 0 := by
    rw [Set.encard_ne_zero]
    exact ⟨q, hq⟩
  rw [h.counted x] at hne
  cases hn : s.nlink x with
  | none => simp [hn] at hne
  | some n =>
    rw [hn, Option.getD_some] at hne
    exact ⟨n - 1, by rw [Nat.sub_add_cancel (Nat.pos_of_ne_zero fun e => hne (by rw [e]; rfl))]⟩

/-- A directory is in use. -/
theorem Tree.dir_used (h : Tree dot dotdot root s) {x : α} (hx : x ∈ s.dirs) :
    ∃ n, s.nlink x = some (n + 1) := h.used (h.self x hx)

/-- An unused object is no directory and held nowhere. -/
theorem Tree.unused (h : Tree dot dotdot root s) {x : α} (hx : s.nlink x = none) :
    x ∉ s.dirs ∧ ∀ q, s.entry q ≠ some x := by
  refine ⟨fun hd => ?_, fun q hq => ?_⟩
  · obtain ⟨n, hn⟩ := h.dir_used hd
    rw [hx] at hn
    exact absurd hn (by simp)
  · obtain ⟨n, hn⟩ := h.used hq
    rw [hx] at hn
    exact absurd hn (by simp)

/-- A free label is neither `dot` nor `dotdot`. -/
theorem Tree.free_label (h : Tree dot dotdot root s) {p : α} {l : L} (hp : p ∈ s.dirs)
    (hl : s.entry (p, l) = none) : l ≠ dot ∧ l ≠ dotdot := by
  constructor
  · rintro rfl
    rw [h.self p hp] at hl
    exact absurd hl (by simp)
  · rintro rfl
    obtain ⟨p', -, hup⟩ := h.parent p hp
    rw [Up] at hup
    rw [hup] at hl
    exact absurd hl (by simp)

/-- A file is held under names only: `dot` and `dotdot` hold directories. -/
theorem Tree.file_names (h : Tree dot dotdot root s) {q : α × L} {x : α} (hq : s.entry q = some x)
    (hx : x ∉ s.dirs) : Names dot dotdot s.entry q x := by
  obtain ⟨p, l⟩ := q
  have hp := h.inside (p, l) x hq
  refine ⟨hq, ?_, ?_⟩
  · rintro rfl
    have hxp : x = p := Option.some.inj (hq.symm.trans (h.self p hp))
    exact hx (hxp ▸ hp)
  · rintro rfl
    obtain ⟨p', hp', hup⟩ := h.parent p hp
    have hxp : x = p' := Option.some.inj (hq.symm.trans hup)
    exact hx (hxp ▸ hp')

/-- **The root alone is a tree.** -/
theorem tree_root {dot dotdot : L} (hdd : dot ≠ dotdot) (root : α) [DecidableEq α]
    [DecidableEq L] :
    Tree dot dotdot root ⟨fun x => if x = root then some 2 else none, {root},
      fun q => if q = (root, dot) ∨ q = (root, dotdot) then some root else none⟩ := by
  have hheld : ∀ {q : α × L} {x : α}, (if q = (root, dot) ∨ q = (root, dotdot) then some root
      else none) = some x → x = root ∧ (q = (root, dot) ∨ q = (root, dotdot)) := by
    intro q x hq
    split at hq
    · next hr => exact ⟨(Option.some.inj hq).symm, hr⟩
    · simp at hq
  refine ⟨rfl, if_pos (Or.inr rfl), fun q hq => ?_, fun q x hq => ?_, fun x => ?_, fun x hx => ?_,
    fun x hx => ⟨root, rfl, ?_⟩, fun x hx hne => absurd hx hne, fun x hx => ?_⟩
  · rcases (hheld hq.1).2 with rfl | rfl
    · exact hq.2.1 rfl
    · exact hq.2.2 rfl
  · rcases (hheld hq).2 with rfl | rfl <;> rfl
  · by_cases hx : x = root
    · subst hx
      have hset : refs (fun q => if q = (x, dot) ∨ q = (x, dotdot) then some x else none) x =
          {(x, dot), (x, dotdot)} := Set.ext fun q => ⟨fun hq => (hheld hq).2, fun hq => if_pos hq⟩
      dsimp only
      rw [hset, Set.encard_pair fun e => hdd (Prod.mk.inj e).2, if_pos rfl]
      rfl
    · have hset : refs (fun q => if q = (root, dot) ∨ q = (root, dotdot) then some root
          else none) x = ∅ := Set.eq_empty_of_forall_notMem fun q hq => hx (hheld hq).1
      dsimp only
      rw [hset, Set.encard_empty, if_neg hx]
      rfl
  · obtain rfl : x = root := hx
    exact if_pos (Or.inl rfl)
  · obtain rfl : x = root := hx
    exact if_pos (Or.inr rfl)
  · obtain rfl : x = root := hx
    exact .refl

/-! ## 5. Steps on files

The structure of the directories does not change: every field of `Tree` but `counted` carries over
as it is, and `counted` is one place bound or freed. -/

variable [DecidableEq α] [DecidableEq L]

/-- An entry of a file changes, and the counts with it. -/
theorem Tree.file_entry (h : Tree dot dotdot root s) {p : α} {l : L} {o : Option α}
    {nlink : α → Option Nat} (hp : p ∈ s.dirs) (hdot : l ≠ dot) (hdotdot : l ≠ dotdot)
    (hnew : ∀ x, o = some x → x ∉ s.dirs) (hold : ∀ x, s.entry (p, l) = some x → x ∉ s.dirs)
    (hc : ∀ x, (refs (Function.update s.entry (p, l) o) x).encard = ((nlink x).getD 0 : Nat)) :
    Tree dot dotdot root ⟨nlink, s.dirs, Function.update s.entry (p, l) o⟩ := by
  have hof : ∀ y l', l' ≠ l → Function.update s.entry (p, l) o (y, l') = s.entry (y, l') :=
    fun y l' hne => Function.update_of_ne (fun he => hne (Prod.mk.inj he).2) _ _
  have hup : Up dotdot (Function.update s.entry (p, l) o) = Up dotdot s.entry := by
    funext y z
    rw [Up, Up, hof y dotdot hdotdot.symm]
  -- the names of a directory are elsewhere
  have hnames : ∀ q x, x ∈ s.dirs →
      (Names dot dotdot (Function.update s.entry (p, l) o) q x ↔
        Names dot dotdot s.entry q x) := by
    intro q x hx
    refine and_congr_left fun _ => ?_
    by_cases hq : q = (p, l)
    · subst hq
      rw [Function.update_self]
      exact iff_of_false (fun he => hnew x he hx) fun he => hold x he hx
    · rw [Function.update_of_ne hq]
  refine ⟨h.root_dir, ?_, fun q hq => ?_, fun q x hq => ?_, hc, fun x hx => ?_, ?_,
    fun x hx hne => ?_, ?_⟩
  · rw [hup]
    exact h.root_up
  · exact h.root_names q ((hnames q root h.root_dir).mp hq)
  · by_cases he : q = (p, l)
    · rw [he]
      exact hp
    · exact h.inside q x ((Function.update_of_ne he o s.entry).symm.trans hq)
  · exact (hof x dot hdot.symm).trans (h.self x hx)
  · rw [hup]
    exact h.parent
  · obtain ⟨q, hq, hqup, hone⟩ := h.named x hx hne
    rw [hup]
    exact ⟨q, (hnames q x hx).mpr hq, hqup, fun q' hq' => hone q' ((hnames q' x hx).mp hq')⟩
  · rw [hup]
    exact h.rooted

/-- A file, new or old, gets one more name. -/
theorem Tree.bind (h : Tree dot dotdot root s) {p x : α} {l : L} (hp : p ∈ s.dirs)
    (hl : s.entry (p, l) = none) (hx : x ∉ s.dirs) :
    Tree dot dotdot root { s with
      nlink := Function.update s.nlink x (some ((s.nlink x).getD 0 + 1))
      entry := Function.update s.entry (p, l) (some x) } := by
  obtain ⟨hdot, hdotdot⟩ := h.free_label hp hl
  refine h.file_entry hp hdot hdotdot (fun y hy => Option.some.inj hy ▸ hx)
    (fun y hy => absurd (hl.symm.trans hy) (by simp)) fun y => ?_
  rw [encard_refs_bind hl y, h.counted y]
  by_cases hxy : x = y
  · subst hxy
    rw [Function.update_self, if_pos rfl, Option.getD_some, Nat.cast_add, Nat.cast_one]
  · rw [Function.update_of_ne (Ne.symm hxy), if_neg hxy, add_zero]

/-- A file loses one name.  Its count may become `0`; the file is then in use, and held nowhere. -/
theorem Tree.unlink (h : Tree dot dotdot root s) {p x : α} {l : L}
    (hl : s.entry (p, l) = some x) (hx : x ∉ s.dirs) :
    Tree dot dotdot root { s with
      nlink := Function.update s.nlink x ((s.nlink x).map (· - 1))
      entry := Function.update s.entry (p, l) none } := by
  obtain ⟨-, hdot, hdotdot⟩ := h.file_names hl hx
  refine h.file_entry (h.inside _ _ hl) hdot hdotdot (fun y hy => absurd hy (by simp))
    (fun y hy => Option.some.inj (hl.symm.trans hy) ▸ hx) fun y => ?_
  have hun := encard_refs_unbind hl y
  rw [h.counted y] at hun
  by_cases hxy : x = y
  · subst hxy
    rw [if_pos rfl] at hun
    obtain ⟨n, hn⟩ := h.used hl
    rw [hn, Option.getD_some] at hun
    rw [Function.update_self, hn, Option.map_some, Option.getD_some]
    exact enat_eq_sub hun
  · rw [if_neg hxy, add_zero] at hun
    rw [Function.update_of_ne (Ne.symm hxy), ← hun]

omit [DecidableEq L] in
/-- An object without links goes away. -/
theorem Tree.drop (h : Tree dot dotdot root s) {x : α} (hx : s.nlink x = some 0) :
    Tree dot dotdot root { s with nlink := Function.update s.nlink x none } := by
  refine ⟨h.root_dir, h.root_up, h.root_names, h.inside, fun y => ?_, h.self, h.parent, h.named,
    h.rooted⟩
  rw [h.counted y]
  dsimp only
  by_cases hxy : y = x
  · rw [hxy, hx, Function.update_self]
    rfl
  · rw [Function.update_of_ne hxy]

/-! ## 6. Steps on directories

A new directory is a leaf and a removed one was a leaf.  The three places that are written are dealt
with in one lemma each (`grown`, `pruned`), and after that the fields of `Tree` are looked up. -/

/-- The entries after a new directory `x` was entered in `p` under `l`. -/
structure Grown (dot dotdot : L) (s : Space α L) (p x : α) (l : L) (E : α × L → Option α) : Prop where
  self : E (x, dot) = some x
  parent : E (x, dotdot) = some p
  rest : ∀ l', l' ≠ dot → l' ≠ dotdot → E (x, l') = none
  name : E (p, l) = some x
  old : ∀ q : α × L, q.1 ≠ x → q ≠ (p, l) → E q = s.entry q
  counted : ∀ y, (refs E y).encard = (refs s.entry y).encard +
    (if x = y then 1 else 0) + (if p = y then 1 else 0) + (if x = y then 1 else 0)

theorem grown (hdd : dot ≠ dotdot) {p x : α} {l : L} (hpx : p ≠ x) (hl : s.entry (p, l) = none)
    (hnone : ∀ l', s.entry (x, l') = none) :
    Grown dot dotdot s p x l (Function.update (Function.update (Function.update s.entry
      (x, dot) (some x)) (x, dotdot) (some p)) (p, l) (some x)) := by
  have hne : ∀ l', (p, l) ≠ (x, l') := fun l' e => hpx (Prod.mk.inj e).1
  have h1 : Function.update s.entry (x, dot) (some x) (x, dotdot) = none := by
    rw [Function.update_of_ne (fun e => hdd (Prod.mk.inj e).2.symm), hnone]
  have h2 : Function.update (Function.update s.entry (x, dot) (some x)) (x, dotdot) (some p)
      (p, l) = none := by
    rw [Function.update_of_ne (hne _), Function.update_of_ne (hne _), hl]
  refine ⟨?_, ?_, fun l' hd hd' => ?_, Function.update_self _ _ _, fun q hq hne' => ?_,
    fun y => ?_⟩
  · rw [Function.update_of_ne (hne _).symm, Function.update_of_ne (fun e => hdd (Prod.mk.inj e).2),
      Function.update_self]
  · rw [Function.update_of_ne (hne _).symm, Function.update_self]
  · rw [Function.update_of_ne (hne _).symm, Function.update_of_ne (fun e => hd' (Prod.mk.inj e).2),
      Function.update_of_ne (fun e => hd (Prod.mk.inj e).2), hnone]
  · rw [Function.update_of_ne hne', Function.update_of_ne (fun e => hq (congrArg Prod.fst e)),
      Function.update_of_ne (fun e => hq (congrArg Prod.fst e))]
  · rw [encard_refs_bind h2, encard_refs_bind h1, encard_refs_bind (hnone dot)]

omit [DecidableEq L] in
/-- The names of the old directories are the old ones. -/
theorem Grown.names {p x : α} {l : L} {E : α × L → Option α} (h : Grown dot dotdot s p x l E)
    (hl : s.entry (p, l) = none) (hnone : ∀ l', s.entry (x, l') = none) {y : α} (hyx : y ≠ x)
    (q : α × L) : Names dot dotdot E q y ↔ Names dot dotdot s.entry q y := by
  obtain ⟨d, l'⟩ := q
  by_cases hd : d = x
  · subst hd
    refine iff_of_false (fun hq => ?_) fun hq => ?_
    · exact absurd ((h.rest l' hq.2.1 hq.2.2).symm.trans hq.1) (by simp)
    · exact absurd ((hnone l').symm.trans hq.1) (by simp)
  · refine and_congr_left fun _ => ?_
    by_cases hq : (d, l') = (p, l)
    · rw [hq, h.name, hl]
      exact iff_of_false (fun e => hyx (Option.some.inj e).symm) (by simp)
    · rw [h.old _ hd hq]

/-- **A new directory is a leaf of the tree.** Its way to the root is one step to its parent and
from there the old way, in which it does not occur. -/
theorem Tree.mkdir (h : Tree dot dotdot root s) (hdd : dot ≠ dotdot) {p x : α} {l : L}
    (hp : p ∈ s.dirs) (hl : s.entry (p, l) = none) (hx : s.nlink x = none) :
    Tree dot dotdot root {
      nlink := Function.update (Function.update s.nlink x (some 2)) p ((s.nlink p).map (· + 1))
      dirs := insert x s.dirs
      entry := Function.update (Function.update (Function.update s.entry (x, dot) (some x))
        (x, dotdot) (some p)) (p, l) (some x) } := by
  obtain ⟨hdot, hdotdot⟩ := h.free_label hp hl
  obtain ⟨hxd, hxe⟩ := h.unused hx
  have hpx : p ≠ x := fun e => hxd (e ▸ hp)
  have hyx : ∀ y ∈ s.dirs, y ≠ x := fun y hy e => hxd (e ▸ hy)
  have hnone : ∀ l', s.entry (x, l') = none := fun l' => by
    cases he : s.entry (x, l') with
    | none => rfl
    | some y => exact absurd (h.inside _ y he) hxd
  have hg := grown hdd hpx hl hnone
  generalize Function.update (Function.update (Function.update s.entry (x, dot) (some x))
    (x, dotdot) (some p)) (p, l) (some x) = E at hg
  have hup : ∀ y ∈ s.dirs, E (y, dotdot) = s.entry (y, dotdot) := fun y hy =>
    hg.old _ (hyx y hy) fun e => hdotdot (Prod.mk.inj e).2.symm
  -- the old paths do not pass through the new directory
  have hpath : ∀ y ∈ s.dirs, Relation.ReflTransGen (Up dotdot E) y root := fun y hy =>
    Relation.ReflTransGen.mono (fun a b hab => (hup a (h.inside _ b hab)).trans hab) _ _
      (h.rooted y hy)
  refine ⟨Set.mem_insert_of_mem x h.root_dir, (hup root h.root_dir).trans h.root_up,
    fun q hq => ?_, fun q y hq => ?_, fun y => ?_, ?_, ?_, ?_, ?_⟩
  · exact h.root_names q ((hg.names hl hnone (hyx root h.root_dir) q).mp hq)
  · by_cases hq1 : q.1 = x
    · rw [hq1]
      exact Set.mem_insert x s.dirs
    · by_cases he : q = (p, l)
      · rw [he]
        exact Set.mem_insert_of_mem x hp
      · exact Set.mem_insert_of_mem x (h.inside q y ((hg.old q hq1 he).symm.trans hq))
  · rw [hg.counted y, h.counted y]
    dsimp only
    by_cases hyp : y = p
    · subst hyp
      obtain ⟨n, hn⟩ := h.dir_used hp
      rw [if_neg hpx.symm, if_pos rfl, Function.update_self, hn]
      simp
    · rw [if_neg (Ne.symm hyp), Function.update_of_ne hyp]
      by_cases hyx : y = x
      · subst hyx
        rw [if_pos rfl, Function.update_self, hx]
        rfl
      · rw [if_neg (Ne.symm hyx), Function.update_of_ne hyx]
        simp
  · rintro y (rfl | hy)
    · exact hg.self
    · exact (hg.old _ (hyx y hy) fun e => hdot (Prod.mk.inj e).2.symm).trans (h.self y hy)
  · rintro y (rfl | hy)
    · exact ⟨p, Set.mem_insert_of_mem y hp, hg.parent⟩
    · obtain ⟨p', hp', hpup⟩ := h.parent y hy
      exact ⟨p', Set.mem_insert_of_mem x hp', (hup y hy).trans hpup⟩
  · rintro y (rfl | hy) hne
    · refine ⟨(p, l), ⟨hg.name, hdot, hdotdot⟩, hg.parent, ?_⟩
      rintro ⟨d, l'⟩ ⟨hq, hq1, hq2⟩
      by_contra hne
      by_cases hd : d = y
      · subst hd
        exact absurd ((hg.rest l' hq1 hq2).symm.trans hq) (by simp)
      · exact hxe _ ((hg.old _ hd hne).symm.trans hq)
    · obtain ⟨q, hq, hqup, hone⟩ := h.named y hy hne
      have hn := hg.names hl hnone (hyx y hy)
      exact ⟨q, (hn q).mpr hq, (hup y hy).trans hqup, fun q' hq' => hone q' ((hn q').mp hq')⟩
  · rintro y (rfl | hy)
    · exact Relation.ReflTransGen.head hg.parent (hpath p hp)
    · exact hpath y hy

/-- The entries after the directory `x`, named by `l` in `p`, was removed. -/
structure Pruned (s : Space α L) (p x : α) (l : L) (E : α × L → Option α) : Prop where
  gone : ∀ l', E (x, l') = none
  place : E (p, l) = none
  old : ∀ q : α × L, q.1 ≠ x → q ≠ (p, l) → E q = s.entry q
  counted : ∀ y, (refs s.entry y).encard = (refs E y).encard +
    ((if p = y then 1 else 0) + (if x = y then 1 else 0) + (if x = y then 1 else 0) : Nat)

theorem pruned (hdd : dot ≠ dotdot) {p x : α} {l : L} (hpx : p ≠ x) (hl : s.entry (p, l) = some x)
    (hself : s.entry (x, dot) = some x) (hup : s.entry (x, dotdot) = some p)
    (hempty : ∀ l', s.entry (x, l') ≠ none → l' = dot ∨ l' = dotdot) :
    Pruned s p x l (Function.update (Function.update (Function.update s.entry (p, l) none)
      (x, dot) none) (x, dotdot) none) := by
  have hne : ∀ l', (x, l') ≠ (p, l) := fun l' e => hpx (Prod.mk.inj e).1.symm
  have h1 : Function.update s.entry (p, l) none (x, dot) = some x := by
    rw [Function.update_of_ne (hne _), hself]
  have h2 : Function.update (Function.update s.entry (p, l) none) (x, dot) none (x, dotdot) =
      some p := by
    rw [Function.update_of_ne (fun e => hdd (Prod.mk.inj e).2.symm),
      Function.update_of_ne (hne _), hup]
  refine ⟨fun l' => ?_, ?_, fun q hq hne' => ?_, fun y => ?_⟩
  · by_cases hd' : l' = dotdot
    · rw [hd', Function.update_self]
    · rw [Function.update_of_ne (fun e => hd' (Prod.mk.inj e).2)]
      by_cases hd : l' = dot
      · rw [hd, Function.update_self]
      · rw [Function.update_of_ne (fun e => hd (Prod.mk.inj e).2), Function.update_of_ne (hne _)]
        by_contra he
        rcases hempty l' he with e | e
        · exact hd e
        · exact hd' e
  · rw [Function.update_of_ne (hne _).symm, Function.update_of_ne (hne _).symm,
      Function.update_self]
  · rw [Function.update_of_ne (fun e => hq (congrArg Prod.fst e)),
      Function.update_of_ne (fun e => hq (congrArg Prod.fst e)), Function.update_of_ne hne']
  · rw [encard_refs_unbind hl, encard_refs_unbind h1, encard_refs_unbind h2]
    push_cast
    rw [add_assoc, add_assoc, add_assoc]

section Leaf

variable {p x y : α} {l : L} {E : α × L → Option α}

omit [DecidableEq α] [DecidableEq L] in
/-- No name is held in an empty directory. -/
theorem names_ne_of_empty (hempty : ∀ l', s.entry (x, l') ≠ none → l' = dot ∨ l' = dotdot)
    {q : α × L} (hq : Names dot dotdot s.entry q y) : q.1 ≠ x := by
  obtain ⟨d, l'⟩ := q
  obtain ⟨hq, hq1, hq2⟩ := hq
  rintro rfl
  rcases hempty l' (by rw [hq]; simp) with e | e
  · exact hq1 e
  · exact hq2 e

omit [DecidableEq α] [DecidableEq L] in
/-- So it is the parent of no directory. -/
theorem Tree.not_up_of_empty (h : Tree dot dotdot root s) (hroot : x ≠ root)
    (hempty : ∀ l', s.entry (x, l') ≠ none → l' = dot ∨ l' = dotdot) (hy : y ∈ s.dirs) :
    ¬Up dotdot s.entry y x := by
  intro hup
  by_cases hyr : y = root
  · subst hyr
    exact hroot (Option.some.inj (hup.symm.trans h.root_up))
  · obtain ⟨q, hq, hqup, -⟩ := h.named y hy hyr
    exact names_ne_of_empty hempty hq (Option.some.inj (hqup.symm.trans hup))

omit [DecidableEq α] [DecidableEq L] in
/-- And the way from any other directory to the root avoids it. -/
theorem Tree.rooted_beside (h : Tree dot dotdot root s) (hroot : x ≠ root)
    (hempty : ∀ l', s.entry (x, l') ≠ none → l' = dot ∨ l' = dotdot)
    (hup : ∀ y, y ≠ x → E (y, dotdot) = s.entry (y, dotdot)) (hy : y ∈ s.dirs) (hyx : y ≠ x) :
    Relation.ReflTransGen (Up dotdot E) y root := by
  have hpath : y ∈ s.dirs → y ≠ x → Relation.ReflTransGen (Up dotdot E) y root := by
    refine Relation.ReflTransGen.head_induction_on (h.rooted y hy) (fun _ _ => .refl) ?_
    intro a b hab _ ih ha hax
    obtain ⟨p', hp', hpup⟩ := h.parent a ha
    obtain rfl : p' = b := Option.some.inj (hpup.symm.trans hab)
    exact Relation.ReflTransGen.head ((hup a hax).trans hab)
      (ih hp' fun e => h.not_up_of_empty hroot hempty ha (e ▸ hab))
  exact hpath hy hyx

omit [DecidableEq L] in
/-- The names of the others are those they had. -/
theorem Pruned.names (hg : Pruned s p x l E) (hl : s.entry (p, l) = some x)
    (hempty : ∀ l', s.entry (x, l') ≠ none → l' = dot ∨ l' = dotdot) (q : α × L) (hyx : y ≠ x) :
    Names dot dotdot E q y ↔ Names dot dotdot s.entry q y := by
  by_cases hq : q.1 = x
  · obtain ⟨d, l'⟩ := q
    obtain rfl : d = x := hq
    exact iff_of_false (fun hq => absurd ((hg.gone l').symm.trans hq.1) (by simp))
      fun hq => names_ne_of_empty hempty hq rfl
  · refine and_congr_left fun _ => ?_
    by_cases hpl : q = (p, l)
    · rw [hpl, hg.place, hl]
      exact iff_of_false (by simp) fun e => hyx (Option.some.inj e).symm
    · rw [hg.old q hq hpl]

omit [DecidableEq L] in
/-- The links of the directory removed and of its parent are counted down with the entries. -/
theorem Pruned.links (hg : Pruned s p x l E) (h : Tree dot dotdot root s) (hpx : p ≠ x) (hp : p ∈ s.dirs)
    (hx : x ∈ s.dirs) (y : α) : (refs E y).encard = ((Function.update (Function.update s.nlink x
      ((s.nlink x).map (· - 2))) p ((s.nlink p).map (· - 1)) y).getD 0 : Nat) := by
  have hc := hg.counted y
  rw [h.counted y] at hc
  rw [enat_eq_sub hc]
  by_cases hyp : y = p
  · subst hyp
    obtain ⟨n, hn⟩ := h.dir_used hp
    rw [if_neg hpx.symm, if_pos rfl, Function.update_self, hn]
    simp
  · rw [if_neg (Ne.symm hyp), Function.update_of_ne hyp]
    by_cases hyx : y = x
    · subst hyx
      obtain ⟨n, hn⟩ := h.dir_used hx
      rw [if_pos rfl, Function.update_self, hn]
      simp
    · rw [if_neg (Ne.symm hyx), Function.update_of_ne hyx]
      simp

end Leaf

/-- **A directory without names in it is a leaf of the tree.** No other directory has it under
`dotdot`, since that directory would have its name in it; so no way to the root passes through
it. -/
theorem Tree.rmdir (h : Tree dot dotdot root s) (hdd : dot ≠ dotdot) {p x : α} {l : L}
    (hl : Names dot dotdot s.entry (p, l) x) (hx : x ∈ s.dirs)
    (hempty : ∀ l', s.entry (x, l') ≠ none → l' = dot ∨ l' = dotdot) :
    Tree dot dotdot root {
      nlink := Function.update (Function.update s.nlink x ((s.nlink x).map (· - 2))) p
        ((s.nlink p).map (· - 1))
      dirs := s.dirs \ {x}
      entry := Function.update (Function.update (Function.update s.entry (p, l) none)
        (x, dot) none) (x, dotdot) none } := by
  have hroot : x ≠ root := fun e => h.root_names (p, l) (e ▸ hl)
  obtain ⟨q, -, hqup, hone⟩ := h.named x hx hroot
  obtain rfl := hone (p, l) hl
  have hpx : p ≠ x := names_ne_of_empty hempty hl
  obtain ⟨hl, hdot, hdotdot⟩ := hl
  have hg := pruned hdd hpx hl (h.self x hx) hqup hempty
  generalize Function.update (Function.update (Function.update s.entry (p, l) none)
    (x, dot) none) (x, dotdot) none = E at hg
  have hup : ∀ y, y ≠ x → E (y, dotdot) = s.entry (y, dotdot) := fun y hy =>
    hg.old _ hy fun e => hdotdot (Prod.mk.inj e).2.symm
  refine ⟨⟨h.root_dir, hroot.symm⟩, (hup root hroot.symm).trans h.root_up, fun q hq => ?_,
    fun q y hq => ?_, hg.links h hpx (h.inside _ _ hl) hx, fun y hy => ?_, fun y hy => ?_,
    fun y hy hne => ?_, fun y hy => h.rooted_beside hroot hempty hup hy.1 hy.2⟩
  · exact h.root_names q ((hg.names hl hempty q hroot.symm).mp hq)
  · obtain ⟨d, l'⟩ := q
    have hd : d ≠ x := fun e => by
      subst e
      exact absurd ((hg.gone l').symm.trans hq) (by simp)
    have hpl : (d, l') ≠ (p, l) := fun e => by
      rw [e] at hq
      exact absurd (hg.place.symm.trans hq) (by simp)
    exact ⟨h.inside (d, l') y ((hg.old _ hd hpl).symm.trans hq), hd⟩
  · exact (hg.old (y, dot) (fun e => hy.2 e) fun e => hdot (Prod.mk.inj e).2.symm).trans
      (h.self y hy.1)
  · obtain ⟨p', hp', hpup⟩ := h.parent y hy.1
    exact ⟨p', ⟨hp', fun e => h.not_up_of_empty hroot hempty hy.1 (e ▸ hpup)⟩,
      (hup y hy.2).trans hpup⟩
  · obtain ⟨q, hq, hqup, hone⟩ := h.named y hy.1 hne
    exact ⟨q, (hg.names hl hempty q hy.2).mpr hq, (hup y hy.2).trans hqup,
      fun q' hq' => hone q' ((hg.names hl hempty q' hy.2).mp hq')⟩

omit [DecidableEq α] [DecidableEq L] in
/-- A directory that is named has two links. -/
theorem Tree.dir_links (h : Tree dot dotdot root s) {q : α × L} {x : α}
    (hq : Names dot dotdot s.entry q x) (hx : x ∈ s.dirs) : ∃ n, s.nlink x = some (n + 2) := by
  have hsub : {(x, dot), q} ⊆ refs s.entry x := by
    rintro r (rfl | rfl)
    · exact h.self x hx
    · exact hq.1
  have hle := Set.encard_le_encard hsub
  rw [Set.encard_pair fun e => hq.2.1 (congrArg Prod.snd e).symm, h.counted x] at hle
  have hle' : 2 ≤ (s.nlink x).getD 0 := by exact_mod_cast hle
  obtain ⟨n, hn⟩ := h.used hq.1
  rw [hn, Option.getD_some] at hle'
  exact ⟨n - 1, by rw [hn]; congr 1; omega⟩

/-- **A directory without names in it has no other links** than its name and its own `dot`. -/
theorem Tree.leaf_links (h : Tree dot dotdot root s) (hdd : dot ≠ dotdot) {p x : α} {l : L}
    (hl : Names dot dotdot s.entry (p, l) x) (hx : x ∈ s.dirs)
    (hempty : ∀ l', s.entry (x, l') ≠ none → l' = dot ∨ l' = dotdot) : s.nlink x = some 2 := by
  have hpx : p ≠ x := by
    rintro rfl
    rcases hempty l (by rw [hl.1]; simp) with e | e
    · exact hl.2.1 e
    · exact hl.2.2 e
  obtain ⟨n, hn⟩ := h.dir_links hl hx
  obtain ⟨q, -, -, hone⟩ := h.named x hx fun e => h.root_names (p, l) (e ▸ hl)
  obtain rfl := hone (p, l) hl
  -- after its removal nothing holds it
  have ht := h.rmdir hdd hl hx hempty
  have hnone : refs (Function.update (Function.update (Function.update s.entry (p, l) none)
      (x, dot) none) (x, dotdot) none) x = ∅ := by
    refine Set.eq_empty_of_forall_notMem fun q hq => ?_
    have hname := ht.file_names (q := q) hq fun hm => hm.2 rfl
    have hq' : Function.update (Function.update (Function.update s.entry (p, l) none)
      (x, dot) none) (x, dotdot) none q = some x := hq
    have hne : q ≠ (p, l) := by
      rintro rfl
      rw [Function.update_of_ne fun e => hpx (Prod.mk.inj e).1,
        Function.update_of_ne fun e => hpx (Prod.mk.inj e).1, Function.update_self] at hq'
      simp at hq'
    rw [Function.update_of_ne fun e => hname.2.2 (congrArg Prod.snd e),
      Function.update_of_ne fun e => hname.2.1 (congrArg Prod.snd e), Function.update_of_ne hne] at hq'
    exact hne (hone q ⟨hq', hname.2⟩)
  have hc := ht.counted x
  rw [hnone, Set.encard_empty] at hc
  dsimp only at hc
  rw [Function.update_of_ne hpx.symm, Function.update_self, hn] at hc
  have hz : n = 0 := by simpa using hc.symm
  rw [hn, hz]

/-- **Every step keeps the tree.** -/
theorem Tree.step (h : Tree dot dotdot root s) (hdd : dot ≠ dotdot) {s' : Space α L}
    (hs : Step dot dotdot s s') : Tree dot dotdot root s' := by
  cases hs with
  | bind hp hl hx => exact h.bind hp hl hx
  | mkdir hp hl hx => exact h.mkdir hdd hp hl hx
  | unlink hl hx => exact h.unlink hl hx
  | rmdir hl hx hempty => exact h.rmdir hdd hl hx hempty
  | drop hx => exact h.drop hx

end Keep

/-! ## 7. What is asked and what is done

Each request determines what is done, but for the object that a creation uses. -/

/-- What is asked of a namespace. -/
inductive Act (α L : Type) where
  | create (p : α) (l : L)
  | link (x p : α) (l : L)
  | mkdir (p : α) (l : L)
  | unlink (p : α) (l : L)
  | rmdir (p : α) (l : L)
  | drop (x : α)

section Acts

variable [DecidableEq α] [DecidableEq L] (dot dotdot : L)

/-- The root alone. -/
def Space.alone (root : α) : Space α L where
  nlink x := if x = root then some 2 else none
  dirs := {root}
  entry q := if q = (root, dot) ∨ q = (root, dotdot) then some root else none

/-- A file entered under a label. -/
def Space.bound (s : Space α L) (p : α) (l : L) (x : α) : Space α L :=
  { s with
    nlink := Function.update s.nlink x (some ((s.nlink x).getD 0 + 1))
    entry := Function.update s.entry (p, l) (some x) }

/-- **What is asked is done.**  Only the object that is created is a matter of choice. -/
inductive Does (s : Space α L) : Act α L → Space α L → Prop
  | create {p x : α} {l : L} (hp : p ∈ s.dirs) (hl : s.entry (p, l) = none)
      (hx : s.nlink x = none) : Does s (.create p l) (s.bound p l x)
  | link {p x : α} {l : L} {q : α × L} (hp : p ∈ s.dirs) (hl : s.entry (p, l) = none)
      (hx : x ∉ s.dirs) (hq : s.entry q = some x) : Does s (.link x p l) (s.bound p l x)
  | mkdir {p x : α} {l : L} (hp : p ∈ s.dirs) (hl : s.entry (p, l) = none)
      (hx : s.nlink x = none) :
      Does s (.mkdir p l) {
        nlink := Function.update (Function.update s.nlink x (some 2)) p
          ((s.nlink p).map (· + 1))
        dirs := insert x s.dirs
        entry := Function.update (Function.update (Function.update s.entry (x, dot) (some x))
          (x, dotdot) (some p)) (p, l) (some x) }
  | unlink {p x : α} {l : L} (hl : s.entry (p, l) = some x) (hx : x ∉ s.dirs) :
      Does s (.unlink p l) { s with
        nlink := Function.update s.nlink x ((s.nlink x).map (· - 1))
        entry := Function.update s.entry (p, l) none }
  | rmdir {p x : α} {l : L} (hl : Names dot dotdot s.entry (p, l) x) (hx : x ∈ s.dirs)
      (hempty : ∀ l', s.entry (x, l') ≠ none → l' = dot ∨ l' = dotdot) :
      Does s (.rmdir p l) {
        nlink := Function.update (Function.update s.nlink x ((s.nlink x).map (· - 2))) p
          ((s.nlink p).map (· - 1))
        dirs := s.dirs \ {x}
        entry := Function.update (Function.update (Function.update s.entry (p, l) none)
          (x, dot) none) (x, dotdot) none }
  | drop {x : α} (hx : s.nlink x = some 0) :
      Does s (.drop x) { s with nlink := Function.update s.nlink x none }

/-- What was asked, one after the other, and done. -/
inductive Trace (s₀ : Space α L) : List (Act α L) → Space α L → Prop
  | start : Trace s₀ [] s₀
  | act {as : List (Act α L)} {s s' : Space α L} {a : Act α L} (h : Trace s₀ as s)
      (hd : Does dot dotdot s a s') : Trace s₀ (as ++ [a]) s'

variable {dot dotdot} {root : α} {s s' s₀ : Space α L} {a : Act α L} {as : List (Act α L)}

/-- What is done is a step, in a tree.  The object of `link` is held somewhere, so it is in use; an
unused object is no directory, which is what `bind` asks of a new file. -/
theorem Does.step (h : Does dot dotdot s a s') (ht : Tree dot dotdot root s) :
    Step dot dotdot s s' := by
  cases h with
  | create hp hl hx => exact .bind hp hl (ht.unused hx).1
  | link hp hl hx _ => exact .bind hp hl hx
  | mkdir hp hl hx => exact .mkdir hp hl hx
  | unlink hl hx => exact .unlink hl hx
  | rmdir hl hx hempty => exact .rmdir hl hx hempty
  | drop hx => exact .drop hx

end Acts

end Namespace
