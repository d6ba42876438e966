/-
# Feeding a table to a consumer

A listing hands the entries of a list of slots, one after the other, to a consumer that may refuse
one.  It passes empty slots in silence and stops at a refusal; `feed` returns the consumer's state,
the number of slots passed, and whether there was no refusal.

Two consumers are worked out.  A search refuses the first entry that matches (`feed_search`).  A
buffer of limited room refuses when it is full; what it holds is what the slots passed hold
(`feed_fill`), so listing on from the first slot not passed loses nothing and repeats nothing.

The consumer is a step function with a verdict.  That is the shape of `filldir` in a kernel, of a
visitor that can stop a traversal, and of a comparison that ends a search; the loop around it is the
same in all of them.  `feed_append` cuts the loop at any slot, which is how a listing page by page
is shown to be one listing, and `feed_le` bounds the number of slots passed.

The number of slots passed, and not of entries handed over, is what a caller needs to go on later:
an empty slot is passed without the consumer being asked, so the two numbers differ.
-/
import Mathlib.Data.List.Basic

namespace Feed

variable {σ α : Type}

/-- A consumer: its new state, and whether it took the entry.  A refusal may change the state too,
so that the consumer can note why it stopped. -/
abbrev Consumer (σ α : Type) := σ → α → σ × Bool

/-- Hand the entries over until one is refused.  The three results are the state of the consumer,
the number of slots passed, and whether the list came to its end. -/
def feed (f : Consumer σ α) : σ → List (Option α) → σ × Nat × Bool
  | s, [] => (s, 0, true)
  | s, none :: l => ((feed f s l).1, (feed f s l).2.1 + 1, (feed f s l).2.2)
  | s, some e :: l =>
    if (f s e).2 then
      ((feed f (f s e).1 l).1, (feed f (f s e).1 l).2.1 + 1, (feed f (f s e).1 l).2.2)
    else ((f s e).1, 0, false)

@[simp] theorem feed_nil (f : Consumer σ α) (s : σ) : feed f s [] = (s, 0, true) := rfl

/-- One entry that is taken. -/
theorem feed_taken {f : Consumer σ α} {s s1 : σ} {e : α} (h : f s e = (s1, true))
    (l : List (Option α)) :
    feed f s (some e :: l) = ((feed f s1 l).1, (feed f s1 l).2.1 + 1, (feed f s1 l).2.2) := by
  simp [feed, h]

/-- One entry that is refused: it is not passed, and nothing behind it is looked at. -/
theorem feed_refused {f : Consumer σ α} {s s1 : σ} {e : α} (h : f s e = (s1, false))
    (l : List (Option α)) : feed f s (some e :: l) = (s1, 0, false) := by
  simp [feed, h]

theorem feed_le (f : Consumer σ α) : ∀ (l : List (Option α)) (s : σ),
    (feed f s l).2.1 ≤ l.length ∧ ((feed f s l).2.2 = true → (feed f s l).2.1 = l.length)
  | [], _ => by simp [feed]
  | none :: l, s => by
    have h := feed_le f l s
    simp only [feed, List.length_cons]
    exact ⟨by omega, fun ht => by rw [h.2 ht]⟩
  | some e :: l, s => by
    have h := feed_le f l (f s e).1
    simp only [feed, List.length_cons]
    by_cases hok : (f s e).2 = true
    · rw [if_pos hok]
      exact ⟨Nat.succ_le_succ h.1, fun ht => by rw [h.2 ht]⟩
    · rw [if_neg hok]
      simp

/-- Two lists one after the other: the second is reached if the first is taken whole, with the state
that the first left. -/
theorem feed_append (f : Consumer σ α) : ∀ (l l' : List (Option α)) (s : σ),
    feed f s (l ++ l') =
      if (feed f s l).2.2 then
        ((feed f (feed f s l).1 l').1, l.length + (feed f (feed f s l).1 l').2.1,
          (feed f (feed f s l).1 l').2.2)
      else feed f s l
  | [], l', s => by simp [feed]
  | none :: l, l', s => by
    have h := feed_append f l l' s
    simp only [List.cons_append, feed, h]
    by_cases hok : (feed f s l).2.2 = true
    · simp [hok, Nat.add_right_comm]
    · simp [hok]
  | some e :: l, l', s => by
    have h := feed_append f l l' (f s e).1
    simp only [List.cons_append, feed]
    by_cases he : (f s e).2 = true
    · simp only [he, if_true, h]
      by_cases hok : (feed f (f s e).1 l).2.2 = true
      · simp [hok, Nat.add_right_comm]
      · simp [hok]
    · simp [he]

/-- **A search ends in the first entry that matches.** The consumer says no to what it looks for, so
that the loop ends there; without a match its state is as it was. -/
theorem feed_search {f : Consumer σ α} {p : α → Bool} {g : α → σ} {s : σ}
    (hf : ∀ e, f s e = if p e then (g e, false) else (s, true)) :
    ∀ l : List (Option α), (feed f s l).1 = (((l.filterMap id).find? p).map g).getD s
  | [] => rfl
  | none :: l => by simpa [feed] using feed_search hf l
  | some e :: l => by
    have h := feed_search hf l
    by_cases hp : p e = true
    · simp [feed, hf, hp]
    · simpa [feed, hf, hp] using h

/-! ## A buffer of limited room

The buffer of a caller holds a number of entries.  It refuses the first one too many, and the slot
of that entry is not passed: the next call begins with it. -/

/-- The room left, what was taken, and whether something was refused. -/
structure Fill (α : Type) where
  room : Nat
  got : List α
  full : Bool

/-- Take an entry if there is room. -/
def fill : Consumer (Fill α) α := fun s e =>
  if s.room = 0 then ({ s with full := true }, false)
  else ({ s with room := s.room - 1, got := s.got ++ [e] }, true)

/-- **A buffer holds what the slots passed hold.** It is not full only if all were passed.  So the
calls of a listing, each from where the one before it stopped, together hold every entry once. -/
theorem feed_fill : ∀ (l : List (Option α)) (room : Nat) (got : List α),
    (feed fill ⟨room, got, false⟩ l).1.got =
        got ++ (l.take (feed fill ⟨room, got, false⟩ l).2.1).filterMap id ∧
      (feed fill ⟨room, got, false⟩ l).1.full = !(feed fill ⟨room, got, false⟩ l).2.2
  | [], room, got => by simp [feed]
  | none :: l, room, got => by simpa [feed] using feed_fill l room got
  | some e :: l, room, got => by
    by_cases h0 : room = 0
    · simp [feed, fill, h0]
    · simpa [feed, fill, h0] using feed_fill l (room - 1) (got ++ [e])

/-- Room for all entries: none is refused. -/
theorem feed_fill_room : ∀ (l : List (Option α)) (room : Nat) (got : List α), l.length ≤ room →
    (feed fill ⟨room, got, false⟩ l).2.2 = true
  | [], _, _, _ => rfl
  | none :: l, room, got, h => by
    simp only [List.length_cons] at h
    simpa [feed] using feed_fill_room l room got (by omega)
  | some e :: l, room, got, h => by
    simp only [List.length_cons] at h
    have h0 : room ≠ 0 := by omega
    simpa [feed, fill, h0] using feed_fill_room l (room - 1) (got ++ [e]) (by omega)

end Feed
