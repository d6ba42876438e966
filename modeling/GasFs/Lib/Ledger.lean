/-
# Owners and a ledger of marks

Owners hold resources, and a ledger marks the resources that are taken: inodes and the block
bitmap, processes and a frame allocator.  The books are `Sound` when nothing is held twice and
everything held is marked, and `Exact` when, besides, everything marked is held.

A `Turn` is a step of one owner: it may give up what it holds and take what is not marked, and it
must leave the marks of all other resources alone.  Nothing else is asked of it, so the two
theorems `Turn.sound` and `Turn.exact` serve every operation of an allocator client.  In a `Handover`
one owner gives all it holds to another, and no mark changes.

Books that are not exact have lost something.  No turn finds it again (`Turn.lost_subset`), and a turn
that unmarks what it gives up loses nothing more (`Turn.lost_eq`).

A typical use has two steps.  First an operation of the program is shown to be a `Turn` of the owner
it works for, which is a frame condition on the other owners and two facts about its own marks.
Then `Turn.sound` gives the invariant for all owners at once, and the proof of an operation never
mentions a second owner.

The resources lost are those marked and held by nobody (`lost`).  They split the marked ones into
two disjoint parts (`Sound.mark_eq`), so the number of marks is the number of held resources exactly
when nothing is lost.
-/
import Mathlib.Data.Set.Lattice
import Mathlib.Order.CompletePartialOrder
import Mathlib.Data.Set.Pairwise.Basic
import Mathlib.Tactic.Common

namespace Ledger

variable {K B : Type}

/-- Nothing is held twice, and everything held is marked.  This is the safety half: an allocator
that hands out unmarked resources only cannot give a second owner what the first one holds. -/
structure Sound (held : K → Set B) (mark : Set B) : Prop where
  marked : ∀ k, held k ⊆ mark
  apart : ∀ k k', k ≠ k' → Disjoint (held k) (held k')

/-- Everything marked is held.  This is the other half, the absence of leaks; it needs every failure
path to give back what it took. -/
def Exact (held : K → Set B) (mark : Set B) : Prop := ∀ b ∈ mark, ∃ k, b ∈ held k

/-- A step of the owner `k`.  The other owners hold what they held; what `k` holds anew was not
marked; what it holds afterwards is marked; and marks of others stay. -/
structure Turn (k : K) (held held' : K → Set B) (mark mark' : Set B) : Prop where
  others : ∀ k', k' ≠ k → held' k' = held k'
  fresh : ∀ b ∈ held' k, b ∈ held k ∨ b ∉ mark
  marked : held' k ⊆ mark'
  keep : ∀ b ∈ mark, b ∉ held k → b ∈ mark'

variable {k : K} {held held' : K → Set B} {mark mark' : Set B}

/-- What an owner holds afterwards no other owner holds. -/
theorem Turn.disjoint (t : Turn k held held' mark mark') (h : Sound held mark) {k' : K}
    (hk : k' ≠ k) : Disjoint (held' k) (held k') := by
  rw [Set.disjoint_left]
  intro b hb hb'
  rcases t.fresh b hb with h1 | h1
  · exact Set.disjoint_left.mp (h.apart k k' hk.symm) h1 hb'
  · exact h1 (h.marked k' hb')

/-- **A turn keeps the books sound.** What `k` took was unmarked, so no other owner held it; what
the others hold is still marked, since `k` did not hold it. -/
theorem Turn.sound (t : Turn k held held' mark mark') (h : Sound held mark) :
    Sound held' mark' where
  marked k' := by
    by_cases hk : k' = k
    · rw [hk]; exact t.marked
    · rw [t.others k' hk]
      exact fun b hb => t.keep b (h.marked k' hb) fun hbk =>
        Set.disjoint_left.mp (h.apart k' k hk) hb hbk
  apart k1 k2 hne := by
    by_cases h1 : k1 = k
    · have h2 : k2 ≠ k := fun e => hne (h1.trans e.symm)
      rw [h1, t.others k2 h2]
      exact t.disjoint h h2
    · rw [t.others k1 h1]
      by_cases h2 : k2 = k
      · rw [h2]
        exact (t.disjoint h h1).symm
      · rw [t.others k2 h2]
        exact h.apart k1 k2 hne

/-- **A turn that unmarks what it gives up keeps them exact.** The hypothesis is about `k` alone:
whatever is marked afterwards it holds, or it was marked before and none of its own. -/
theorem Turn.exact (t : Turn k held held' mark mark')
    (hx : ∀ b ∈ mark', b ∈ held' k ∨ b ∈ mark ∧ b ∉ held k) (h : Exact held mark) :
    Exact held' mark' := by
  intro b hb
  rcases hx b hb with h1 | ⟨h1, h2⟩
  · exact ⟨k, h1⟩
  · obtain ⟨k', hk'⟩ := h b h1
    have hne : k' ≠ k := fun e => h2 (e ▸ hk')
    exact ⟨k', (t.others k' hne) ▸ hk'⟩

/-- What is marked and held by no one. -/
def lost (held : K → Set B) (mark : Set B) : Set B := {b | b ∈ mark ∧ ∀ k, b ∉ held k}

/-- What is marked is held or lost, and not both. -/
theorem Sound.mark_eq (h : Sound held mark) :
    mark = (⋃ k, held k) ∪ lost held mark ∧ Disjoint (⋃ k, held k) (lost held mark) := by
  refine ⟨Set.ext fun b => ⟨fun hb => ?_, ?_⟩, Set.disjoint_left.mpr fun b hb hl => ?_⟩
  · by_cases hh : ∃ k, b ∈ held k
    · exact Or.inl (Set.mem_iUnion.mpr hh)
    · exact Or.inr ⟨hb, not_exists.mp hh⟩
  · rintro (hb | hb)
    · obtain ⟨k, hk⟩ := Set.mem_iUnion.mp hb
      exact h.marked k hk
    · exact hb.1
  · obtain ⟨k, hk⟩ := Set.mem_iUnion.mp hb
    exact hl.2 k hk

/-- **What is lost stays lost**: no turn finds it again.  A lost resource is marked, so nobody takes
it, and held by nobody, so nobody gives it up. -/
theorem Turn.lost_subset (t : Turn k held held' mark mark') : lost held mark ⊆ lost held' mark' := by
  rintro b ⟨hb, hno⟩
  refine ⟨t.keep b hb (hno k), fun k' hk' => ?_⟩
  by_cases hk : k' = k
  · subst hk
    rcases t.fresh b hk' with h | h
    · exact hno k' h
    · exact h hb
  · rw [t.others k' hk] at hk'
    exact hno k' hk'

/-- A turn that unmarks what it gives up loses nothing. -/
theorem Turn.lost_eq (t : Turn k held held' mark mark')
    (hx : ∀ b ∈ mark', b ∈ held' k ∨ b ∈ mark ∧ b ∉ held k) :
    lost held' mark' = lost held mark := by
  refine Set.Subset.antisymm ?_ t.lost_subset
  rintro b ⟨hb, hno⟩
  obtain ⟨h1, h2⟩ := (hx b hb).resolve_left (hno k)
  refine ⟨h1, fun k' hk' => ?_⟩
  by_cases hk : k' = k
  · exact h2 (hk ▸ hk')
  · exact hno k' (by rwa [t.others k' hk])

/-- The owner `k` gives what it holds to the owner `l`.  No mark changes; it is a change of names,
such as when a kernel writes an object back and another one is made from the record. -/
structure Handover (k l : K) (held held' : K → Set B) : Prop where
  others : ∀ k', k' ≠ k → k' ≠ l → held' k' = held k'
  giver : held' k = ∅
  taker : held' l = held l ∪ held k

variable {l : K}

theorem Handover.mem (t : Handover k l held held') {k' : K} {b : B} (h : b ∈ held' k') :
    b ∈ held k' ∨ k' = l ∧ b ∈ held k := by
  by_cases hl : k' = l
  · subst hl
    rw [t.taker] at h
    exact h.imp_right fun hb => ⟨rfl, hb⟩
  · by_cases hk : k' = k
    · subst hk
      rw [t.giver] at h
      exact absurd h (Set.notMem_empty b)
    · rw [t.others k' hk hl] at h
      exact Or.inl h

/-- **A handover keeps the books sound.** -/
theorem Handover.sound (t : Handover k l held held') (h : Sound held mark) : Sound held' mark where
  marked k' b hb := by
    rcases t.mem hb with h1 | ⟨-, h1⟩
    · exact h.marked k' h1
    · exact h.marked k h1
  apart k1 k2 hne := by
    rw [Set.disjoint_left]
    intro b h1 h2
    by_cases hk1 : k1 = k
    · rw [hk1, t.giver] at h1
      exact h1
    by_cases hk2 : k2 = k
    · rw [hk2, t.giver] at h2
      exact h2
    rcases t.mem h1 with h1 | ⟨rfl, h1⟩
    · rcases t.mem h2 with h2 | ⟨rfl, h2⟩
      · exact Set.disjoint_left.mp (h.apart k1 k2 hne) h1 h2
      · exact Set.disjoint_left.mp (h.apart k1 k hk1) h1 h2
    · rcases t.mem h2 with h2 | ⟨rfl, -⟩
      · exact Set.disjoint_left.mp (h.apart k2 k hk2) h2 h1
      · exact hne rfl

/-- **And exact.** -/
theorem Handover.exact (t : Handover k l held held') (h : Exact held mark) :
    Exact held' mark := by
  intro b hb
  obtain ⟨k', hk'⟩ := h b hb
  by_cases hk : k' = k
  · refine ⟨l, ?_⟩
    rw [t.taker]
    exact Or.inr (hk ▸ hk')
  · by_cases hl : k' = l
    · refine ⟨l, ?_⟩
      rw [t.taker]
      exact Or.inl (hl ▸ hk')
    · exact ⟨k', (t.others k' hk hl).symm ▸ hk'⟩

end Ledger
