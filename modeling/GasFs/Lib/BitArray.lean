/-
# Bit arrays packed in words

A bit array is a function `Nat → Bool`.  This file says what "the first set bit of a range" is
(`IsFirst`) and how bits lie in an array of words (`bits`), and it changes the word size of such
an array (`regroup`), which is what a cast between pointers to words of two sizes does on a
little-endian machine.

Searches over words are put together from searches in one word: `IsFirst.skip` passes a stretch of
clear bits and `IsFirst.of_word` lifts the answer in one word to the whole array.

The first set bit of a range is unique (`IsFirst.unique`), so two searches agree as soon as both
return one.  That is how a search word by word is compared with a search bit by bit: nothing has to
be said about the order in which the words are visited, only that each visited word was clear or
gave the answer.

The last part counts.  `clear_count` is the number of clear bits below a bound; it is additive in
the bound, equals a cardinality (`clear_count_eq_card`), and for a bit array that is kept in blocks
it is the sum over the blocks (`clear_count_flat`).  A program that subtracts the set bits of each
block from the size of a block computes it (`sub_countP_eq`).
-/
import Mathlib.Data.Nat.Bitwise
import Mathlib.Data.Nat.Count
import Mathlib.Tactic.Common

namespace BitArray

/-! ## 1. The first set bit

The bound `hi` stands for "not found", as it does for the search functions of C libraries and
kernels, which return the size of the range in that case. -/

/-- `r` is the first set bit of `p` in `[lo, hi)`, or `hi` when there is none.  The two cases are
one structure: below `r` everything is clear, and `r` is set if it lies in the range. -/
structure IsFirst (p : Nat → Bool) (lo hi r : Nat) : Prop where
  ge : lo ≤ r
  le : r ≤ hi
  clear : ∀ j, lo ≤ j → j < r → p j = false
  set : r < hi → p r = true

namespace IsFirst

variable {p q : Nat → Bool} {lo mid hi r r' : Nat}

/-- There is one first set bit.  Of two candidates the smaller would be a set bit in the clear
stretch in front of the larger one. -/
theorem unique (h : IsFirst p lo hi r) (h' : IsFirst p lo hi r') : r = r' := by
  rcases Nat.lt_trichotomy r r' with hlt | he | hgt
  · have hset := h.set (Nat.lt_of_lt_of_le hlt h'.le)
    rw [h'.clear r h.ge hlt] at hset
    exact absurd hset Bool.false_ne_true
  · exact he
  · have hset := h'.set (Nat.lt_of_lt_of_le hgt h.le)
    rw [h.clear r' h'.ge hgt] at hset
    exact absurd hset Bool.false_ne_true

/-- A clear range has none. -/
theorem of_clear (hle : lo ≤ hi) (h : ∀ j, lo ≤ j → j < hi → p j = false) : IsFirst p lo hi hi :=
  ⟨hle, Nat.le_refl _, h, fun hlt => absurd hlt (Nat.lt_irrefl _)⟩

/-- A clear stretch in front is passed over.  This is the step of a search that goes from one word
to the next. -/
theorem skip (h : IsFirst p mid hi r) (hle : lo ≤ mid)
    (hclear : ∀ j, lo ≤ j → j < mid → p j = false) : IsFirst p lo hi r where
  ge := Nat.le_trans hle h.ge
  le := h.le
  clear j hlo hj := (Nat.lt_or_ge j mid).elim (hclear j hlo) fun hm => h.clear j hm hj
  set := h.set

/-- A bit found in a part is the first of the whole, as long as the part is at the front. -/
theorem extend (h : IsFirst p lo mid r) (hr : r < mid) (hle : mid ≤ hi) : IsFirst p lo hi r :=
  ⟨h.ge, Nat.le_trans h.le hle, h.clear, fun _ => h.set hr⟩

/-- The same bits have the same first one. -/
theorem congr (h : IsFirst p lo hi r) (he : ∀ j, lo ≤ j → j < hi → q j = p j) :
    IsFirst q lo hi r where
  ge := h.ge
  le := h.le
  clear j hlo hj := (he j hlo (Nat.lt_of_lt_of_le hj h.le)).trans (h.clear j hlo hj)
  set hr := (he r h.ge hr).trans (h.set hr)

end IsFirst

/-! ## 2. Bits in words

Bit `k` of the array is bit `k % n` of word `k / n`.  Everything below is stated for a word size `n`
that is a parameter, since one program may look at the same memory with words of two sizes. -/

variable {n m : Nat}

/-- The bits of an array of words, each least significant bit first. -/
def bits (a : Nat → BitVec n) (k : Nat) : Bool := (a (k / n)).getLsbD (k % n)

/-- A bit by its word and its place there. -/
theorem bits_mul_add (a : Nat → BitVec n) (i : Nat) {j : Nat} (hj : j < n) :
    bits a (n * i + j) = (a i).getLsbD j := by
  have hn : 0 < n := Nat.lt_of_le_of_lt (Nat.zero_le j) hj
  rw [bits, Nat.mul_add_div hn, Nat.div_eq_of_lt hj, Nat.add_zero, Nat.mul_add_mod,
    Nat.mod_eq_of_lt hj]

/-- **An array is its bits.** Two arrays of words with the same bits are equal, so an effect on the
bits describes the array completely. -/
theorem bits_injective : Function.Injective (bits (n := n)) := by
  intro a b h
  funext i
  refine BitVec.eq_of_getLsbD_eq fun j hj => ?_
  rw [← bits_mul_add a i hj, ← bits_mul_add b i hj, h]

/-- The bits of an inverted array. -/
theorem bits_not (a : Nat → BitVec n) (hn : 0 < n) (k : Nat) :
    bits (fun i => ~~~a i) k = !bits a k := by
  have hlt := Nat.mod_lt k hn
  simp [bits, hlt]

/-- **A search in one word** is one in the array: the place found moves by the bits of the words in
front. -/
theorem IsFirst.of_word {a : Nat → BitVec n} {i lo hi r : Nat} (hhi : hi ≤ n)
    (h : IsFirst (a i).getLsbD lo hi r) : IsFirst (bits a) (n * i + lo) (n * i + hi) (n * i + r)
    where
  ge := Nat.add_le_add_left h.ge _
  le := Nat.add_le_add_left h.le _
  clear j hlo hj := by
    obtain ⟨k, rfl⟩ : ∃ k, j = n * i + k := ⟨j - n * i, by omega⟩
    have hle := h.le
    rw [bits_mul_add a i (by omega)]
    exact h.clear k (by omega) (by omega)
  set hr := by
    rw [bits_mul_add a i (by omega)]
    exact h.set (by omega)

/-! ## 3. Words of another size

On a little-endian machine a cast from `u8 *` to `unsigned long *` changes how the bits are grouped
and nothing else.  `regroup` is that cast, and `bits_regroup` says that no bit moves. -/

/-- The same bits in words of `m` bits. -/
def regroup (m : Nat) (a : Nat → BitVec n) : Nat → BitVec m := fun i =>
  BitVec.ofNat m (Nat.ofBits fun j : Fin m => bits a (m * i + j))

/-- **Regrouping moves no bit.** -/
theorem bits_regroup (hm : 0 < m) (a : Nat → BitVec n) (k : Nat) :
    bits (regroup m a) k = bits a k := by
  have hlt := Nat.mod_lt k hm
  rw [bits, regroup, BitVec.getLsbD_ofNat, Nat.testBit_ofBits_lt _ _ hlt, Nat.div_add_mod]
  simp [hlt]

/-! ## 4. Counting

A count of clear bits is what a file system reports as free space. -/

/-- The clear bits among the first `n`. -/
def clear_count (p : Nat → Bool) (n : Nat) : Nat := Nat.count (fun k => p k = false) n

theorem clear_count_add (p : Nat → Bool) (a b : Nat) :
    clear_count p (a + b) = clear_count p a + clear_count (fun k => p (a + k)) b :=
  Nat.count_add _ a b

theorem clear_count_le (p : Nat → Bool) (n : Nat) : clear_count p n ≤ n := Nat.count_le _

/-- The count as a cardinality, which is how a set of free places is measured. -/
theorem clear_count_eq_card (p : Nat → Bool) (n : Nat) :
    clear_count p n = ((Finset.range n).filter fun k => p k = false).card :=
  Nat.count_eq_card_filter_range _ n

theorem clear_count_congr {p q : Nat → Bool} {n : Nat} (h : ∀ k < n, p k = q k) :
    clear_count p n = clear_count q n := by
  rw [clear_count_eq_card, clear_count_eq_card]
  refine congrArg Finset.card (Finset.filter_congr fun k hk => ?_)
  rw [h k (Finset.mem_range.mp hk)]

/-- The bits that are not set are clear. -/
theorem sub_countP_eq (p : Nat → Bool) (n : Nat) : n - (List.range n).countP p = clear_count p n := by
  have hsum := List.length_eq_countP_add_countP p (l := List.range n)
  rw [List.length_range] at hsum
  have hclear : clear_count p n = (List.range n).countP fun k => decide ¬p k = true := by
    simp only [clear_count, Nat.count, Bool.not_eq_true]
  rw [hclear]
  omega

/-- An array of blocks of `n` bits, read as one. -/
def flat (n : Nat) (map : Nat → Nat → Bool) (b : Nat) : Bool := map (b / n) (b % n)

/-- **A block** contributes its own clear bits, and the blocks behind it are counted in the same
way.  This is the step of an induction over the blocks. -/
theorem clear_count_flat {map : Nat → Nat → Bool} (hn : 0 < n) (k l : Nat) :
    clear_count (fun b => flat n map (k * n + b)) ((l + 1) * n) =
      clear_count (map k) n + clear_count (fun b => flat n map ((k + 1) * n + b)) (l * n) := by
  have hsplit : (l + 1) * n = n + l * n := by rw [Nat.succ_mul, Nat.add_comm]
  have hnext : (k + 1) * n = k * n + n := Nat.succ_mul k n
  rw [hsplit, clear_count_add]
  congr 1
  · refine clear_count_congr fun j hj => ?_
    rw [flat, Nat.mul_comm k n, Nat.mul_add_div hn, Nat.div_eq_of_lt hj, Nat.mul_add_mod,
      Nat.mod_eq_of_lt hj, Nat.add_zero]
  · simp only [hnext, Nat.add_assoc]

end BitArray
