/-
# Bitmaps of 64-bit words: `makefs/bitmap.c`

`mkfs.gas` has its own bitmap functions, on arrays of 64-bit words with masks for the first and the
last word.  Each gets one theorem in terms of the bits alone: `find_next_bit` and
`find_next_zero_bit` return the first set and the first clear bit (`find_next_bit_isFirst`,
`find_next_zero_bit_isFirst`), `bitmap_set` and `bitmap_clear` change the bits of a range and no
other (`bits_bitmap_set`, `bits_bitmap_clear`), and `bitmap_alloc_region` is first fit
(`bitmap_alloc_region_cases`).

The `int` parameters are natural numbers here: no caller passes a negative one, and the only
arithmetic on them is below `2 ^ 31`.

The file is read in three steps, and each has a lemma that the next one uses in its place.

* A word: `ffs_step` is one `if` of `__ffs`, and `FfsInv` is what holds between two of them.  From
  it come `ffs_spec` for a word, and `isFirst_ffs` for a word masked down to a range.
* A bitmap: the search walks the words, and `IsFirst` says at each of them that nothing in front is
  set.  `find_next_zero_bit` is not walked again; it is `find_next_bit` on the inverted words.
* A region: `bitmap_find_next_zero_area` looks for a clear bit and then for a set bit behind it, and
  starts over behind that one.  `find_zero_area_again_spec` says what it has ruled out by then.

A `goto` that leads back is a recursion with a bound on its rounds, and each bound comes with the
reason why it is never reached; for the search of a region the reason is a theorem of its own,
`find_zero_area_rounds_eq`.
-/
import GasFs.Lib.BitArray
import GasFs.Layout

namespace GasFs

open BitArray

/-! ## 1. The first set bit of a word

`__ffs` halves the word six times: 32 bits, 16, 8, 4, 2, 1.  Each step looks at the low half, and
when nothing is set there it counts the half and shifts it out.  The invariant has the width as a
parameter, so that the six steps are one lemma, `FfsInv.step`, applied six times. -/

/-- `~0UL`, the word with every bit set.  The masks of both searches and of the two fillers are
shifts of it. -/
abbrev all_ones : BitVec 64 := ~~~0#64

/-- One `if` of `__ffs`: when the low `k` bits are clear, count them and shift them out.  The mask
has the low `k` bits set, so the test is whether one of these bits is. -/
def ffs_step (k : Nat) (s : Nat × BitVec 64) : Nat × BitVec 64 :=
  if s.2 &&& BitVec.ofNat 64 (2 ^ k - 1) = 0#64 then (s.1 + k, s.2 >>> k) else s

/-- `__ffs`.  It is called on words that are not zero; on zero it returns 63, which no caller asks
for. -/
def ffs (word : BitVec 64) : Nat :=
  (ffs_step 1 (ffs_step 2 (ffs_step 4 (ffs_step 8 (ffs_step 16 (ffs_step 32 (0, word))))))).1

/-- `ffz`: the first clear bit of a word is the first set bit of its complement. -/
def ffz (word : BitVec 64) : Nat := ffs (~~~word)

/-- A word is not zero when one of its bits is set. -/
theorem exists_bit {w : BitVec 64} (h : w ≠ 0#64) : ∃ j, w.getLsbD j = true := by
  by_contra hno
  refine h (BitVec.eq_of_getLsbD_eq fun j _ => ?_)
  rw [BitVec.getLsbD_zero]
  exact Bool.eq_false_iff.mpr fun hj => hno ⟨j, hj⟩

/-- Between two steps of `__ffs`: the bits counted are clear, the rest of the word is what was
shifted, and one of its low `k` bits is set.  At the start nothing is counted and the width is 64;
at the end the width is 1, so bit 0 is set. -/
structure FfsInv (word : BitVec 64) (k : Nat) (s : Nat × BitVec 64) : Prop where
  shifted : ∀ j, word.getLsbD (s.1 + j) = s.2.getLsbD j
  clear : ∀ j < s.1, word.getLsbD j = false
  found : ∃ j < k, s.2.getLsbD j = true

theorem FfsInv.step {word : BitVec 64} {k : Nat} {s : Nat × BitVec 64}
    (h : FfsInv word (k + k) s) : FfsInv word k (ffs_step k s) := by
  have hmask : ∀ j, (s.2 &&& BitVec.ofNat 64 (2 ^ k - 1)).getLsbD j =
      (s.2.getLsbD j && decide (j < k)) := by
    intro j
    rw [BitVec.getLsbD_and, BitVec.getLsbD_ofNat, Nat.testBit_two_pow_sub_one]
    cases hj : s.2.getLsbD j with
    | false => rfl
    | true => simp [BitVec.lt_of_getLsbD hj]
  unfold ffs_step
  split
  · next hz =>
    have hlow : ∀ j < k, s.2.getLsbD j = false := by
      intro j hj
      have hb := hmask j
      rw [hz, BitVec.getLsbD_zero] at hb
      simpa [hj] using hb.symm
    refine ⟨fun j => ?_, fun j hj => ?_, ?_⟩
    · rw [BitVec.getLsbD_ushiftRight, ← h.shifted, Nat.add_assoc]
    · rcases Nat.lt_or_ge j s.1 with hlt | hge
      · exact h.clear j hlt
      · obtain ⟨i, rfl⟩ : ∃ i, j = s.1 + i := ⟨j - s.1, by omega⟩
        rw [h.shifted]
        exact hlow i (by omega)
    · obtain ⟨j, hj, hset⟩ := h.found
      have hge : k ≤ j := by
        by_contra hlt
        rw [hlow j (by omega)] at hset
        exact Bool.false_ne_true hset
      refine ⟨j - k, by omega, ?_⟩
      rw [BitVec.getLsbD_ushiftRight, Nat.add_sub_cancel' hge]
      exact hset
  · next hz =>
    refine ⟨h.shifted, h.clear, ?_⟩
    obtain ⟨j, hj⟩ := exists_bit hz
    rw [hmask, Bool.and_eq_true, decide_eq_true_eq] at hj
    exact ⟨j, hj.2, hj.1⟩

/-- **`__ffs` is the number of the first set bit** of a word that has one. -/
theorem ffs_spec {word : BitVec 64} (h : word ≠ 0#64) :
    word.getLsbD (ffs word) = true ∧ ∀ j < ffs word, word.getLsbD j = false := by
  obtain ⟨b, hb⟩ := exists_bit h
  have h0 : FfsInv word (32 + 32) (0, word) :=
    ⟨fun j => by rw [Nat.zero_add], fun j hj => absurd hj (Nat.not_lt_zero j),
      b, BitVec.lt_of_getLsbD hb, hb⟩
  have h1 : FfsInv word 1 _ := h0.step.step.step.step.step.step (k := 1)
  obtain ⟨j, hj, hset⟩ := h1.found
  obtain rfl : j = 0 := by omega
  refine ⟨?_, h1.clear⟩
  rw [← h1.shifted 0, Nat.add_zero] at hset
  exact hset

/-- In a word masked down to a range, the first set bit is the first one of the range. -/
theorem isFirst_ffs {w t : BitVec 64} {lo hi : Nat}
    (ht : ∀ j, t.getLsbD j = (w.getLsbD j && decide (lo ≤ j ∧ j < hi))) (h : t ≠ 0#64) :
    IsFirst w.getLsbD lo hi (ffs t) ∧ ffs t < hi := by
  obtain ⟨hset, hclear⟩ := ffs_spec h
  rw [ht, Bool.and_eq_true, decide_eq_true_eq] at hset
  obtain ⟨hw, hlo, hhi⟩ := hset
  refine ⟨⟨hlo, Nat.le_of_lt hhi, fun j hj hlt => ?_, fun _ => hw⟩, hhi⟩
  have hj' := hclear j hlt
  rw [ht, Bool.and_eq_false_iff, decide_eq_false_iff_not] at hj'
  exact hj'.resolve_right fun hn => hn ⟨hj, Nat.lt_trans hlt hhi⟩

/-- When nothing is left of it, the range is clear. -/
theorem isFirst_zero {w t : BitVec 64} {lo hi : Nat} (hle : lo ≤ hi)
    (ht : ∀ j, t.getLsbD j = (w.getLsbD j && decide (lo ≤ j ∧ j < hi))) (h : t = 0#64) :
    IsFirst w.getLsbD lo hi hi := by
  refine IsFirst.of_clear hle fun j hlo hhi => ?_
  have hj := ht j
  rw [h, BitVec.getLsbD_zero, decide_eq_true ⟨hlo, hhi⟩, Bool.and_true] at hj
  exact hj.symm

/-! ## 2. Searching

The search has a first word, whole words, and a last word, of which only a part counts.  A mask
takes the bits in front of `offset` out of the first and the bits from `size` on out of the last.
The loop keeps that everything in front of the current word is clear. -/

/-- `found_first` of `find_next_bit`: the last word, of which `size` bits are looked at.  The mask
is what keeps a set bit behind the end of the bitmap from being found. -/
def found_first (tmp : BitVec 64) (size result : Nat) : Nat :=
  let tmp := tmp &&& (all_ones >>> (64 - size))
  if tmp = 0#64 then result + size else result + ffs tmp

/-- The `while` loop of `find_next_bit`, which makes `size / 64` rounds, and what follows it.  It
has the number of whole words that are left and the number of bits behind them, where the source has
the bits left in one variable. -/
def find_next_bit_loop (addr : Nat → BitVec 64) (rest : Nat) : Nat → Nat → Nat → Nat
  | 0, p, result => if rest = 0 then result else found_first (addr p) rest result
  | n + 1, p, result =>
    let tmp := addr p
    if tmp ≠ 0#64 then result + ffs tmp else find_next_bit_loop addr rest n (p + 1) (result + 64)

/-- `find_next_bit`. -/
def find_next_bit (addr : Nat → BitVec 64) (size offset : Nat) : Nat :=
  let p := offset / 64
  let result := offset / 64 * 64
  if size ≤ offset then size
  else
    let size := size - result
    let offset := offset % 64
    if offset ≠ 0 then
      let tmp := addr p &&& (all_ones <<< offset)
      if size < 64 then found_first tmp size result
      else if tmp ≠ 0#64 then result + ffs tmp
      else find_next_bit_loop addr ((size - 64) % 64) ((size - 64) / 64) (p + 1) (result + 64)
    else find_next_bit_loop addr (size % 64) (size / 64) p result

/-- `found_first` of `find_next_zero_bit`. -/
def found_first_zero (tmp : BitVec 64) (size result : Nat) : Nat :=
  let tmp := tmp ||| (all_ones <<< size)
  if tmp = all_ones then result + size else result + ffz tmp

/-- The `while` loop of `find_next_zero_bit`, and what follows it. -/
def find_next_zero_bit_loop (addr : Nat → BitVec 64) (rest : Nat) : Nat → Nat → Nat → Nat
  | 0, p, result => if rest = 0 then result else found_first_zero (addr p) rest result
  | n + 1, p, result =>
    let tmp := addr p
    if ~~~tmp ≠ 0#64 then result + ffz tmp
    else find_next_zero_bit_loop addr rest n (p + 1) (result + 64)

/-- `find_next_zero_bit`. -/
def find_next_zero_bit (addr : Nat → BitVec 64) (size offset : Nat) : Nat :=
  let p := offset / 64
  let result := offset / 64 * 64
  if size ≤ offset then size
  else
    let size := size - result
    let offset := offset % 64
    if offset ≠ 0 then
      let tmp := addr p ||| (all_ones >>> (64 - offset))
      if size < 64 then found_first_zero tmp size result
      else if ~~~tmp ≠ 0#64 then result + ffz tmp
      else find_next_zero_bit_loop addr ((size - 64) % 64) ((size - 64) / 64) (p + 1) (result + 64)
    else find_next_zero_bit_loop addr (size % 64) (size / 64) p result

/-- The mask of the low bits, for the last word. -/
theorem getLsbD_low_mask {size j : Nat} (h : size ≤ 64) :
    (all_ones >>> (64 - size)).getLsbD j = decide (j < size) := by
  rw [BitVec.getLsbD_ushiftRight, BitVec.getLsbD_not, BitVec.getLsbD_zero, Bool.not_false,
    Bool.and_true]
  exact decide_eq_decide.mpr (by omega)

/-- The mask of the high bits, for the first word. -/
theorem getLsbD_high_mask {offset j : Nat} :
    (all_ones <<< offset).getLsbD j = (decide (j < 64) && decide (offset ≤ j)) := by
  rw [BitVec.getLsbD_shiftLeft, BitVec.getLsbD_not, BitVec.getLsbD_zero]
  by_cases h1 : j < 64
  · simp only [h1, Nat.lt_of_le_of_lt (Nat.sub_le j offset) h1, decide_true, Bool.true_and,
      Bool.not_false, Bool.and_true, ← decide_not]
    exact decide_eq_decide.mpr Nat.not_lt
  · simp [h1]

/-- The last word: the first set bit in the part that counts, or its end. -/
theorem found_first_isFirst (addr : Nat → BitVec 64) (p : Nat) {lo size : Nat} (tmp : BitVec 64)
    (hlo : lo ≤ size) (hsize : size ≤ 64)
    (htmp : ∀ j, tmp.getLsbD j = ((addr p).getLsbD j && decide (lo ≤ j))) :
    IsFirst (bits addr) (64 * p + lo) (64 * p + size) (found_first tmp size (64 * p)) := by
  have ht : ∀ j, (tmp &&& (all_ones >>> (64 - size))).getLsbD j =
      ((addr p).getLsbD j && decide (lo ≤ j ∧ j < size)) := by
    intro j
    rw [BitVec.getLsbD_and, getLsbD_low_mask hsize, htmp, Bool.and_assoc, Bool.decide_and]
  simp only [found_first]
  split
  · next hz => exact (isFirst_zero hlo ht hz).of_word hsize
  · next hz => exact (isFirst_ffs ht hz).1.of_word hsize

/-- The loop finds the first set bit of the words it is given. -/
theorem find_next_bit_loop_isFirst (addr : Nat → BitVec 64) (rest : Nat) (hrest : rest < 64) :
    ∀ n p : Nat, IsFirst (bits addr) (64 * p) (64 * p + (64 * n + rest))
      (find_next_bit_loop addr rest n p (64 * p)) := by
  intro n
  induction n with
  | zero =>
    intro p
    -- a set bit in this word ends the search; otherwise the word joins what is known to be clear
    simp only [find_next_bit_loop]
    split
    · next hz =>
      subst hz
      exact IsFirst.of_clear (Nat.le_refl _) fun j h1 h2 => absurd h2 (Nat.not_lt.mpr h1)
    · have h := found_first_isFirst addr p (addr p) (Nat.zero_le rest)
        (Nat.le_of_lt hrest) fun j => by simp
      rw [Nat.mul_zero, Nat.zero_add]
      exact h
  | succ n ih =>
    intro p
    have ht : ∀ j, (addr p).getLsbD j = ((addr p).getLsbD j && decide (0 ≤ j ∧ j < 64)) := by
      intro j
      cases hj : (addr p).getLsbD j with
      | false => rfl
      | true => simp [BitVec.lt_of_getLsbD hj]
    simp only [find_next_bit_loop]
    split
    · next hne =>
      obtain ⟨hfirst, hlt⟩ := isFirst_ffs ht hne
      exact (hfirst.of_word (Nat.le_refl 64)).extend (Nat.add_lt_add_left hlt _) (by omega)
    · next hz =>
      have hclear := (isFirst_zero (Nat.zero_le 64) ht (not_not.mp hz)).of_word (Nat.le_refl 64)
      have h := ih (p + 1)
      rw [Nat.mul_succ] at h
      rw [show 64 * p + (64 * (n + 1) + rest) = 64 * p + 64 + (64 * n + rest) by ring]
      exact h.skip (Nat.le_add_right _ _) hclear.clear

/-- **`find_next_bit` returns the first set bit** of `[offset, size)`, or `size`.  The end `size`
may lie inside a word; the bits behind it in that word do not count. -/
theorem find_next_bit_isFirst (addr : Nat → BitVec 64) {size offset : Nat} (h : offset < size) :
    IsFirst (bits addr) offset size (find_next_bit addr size offset) := by
  -- the offset is bit `o` of word `p`, and the size is counted from that word on
  obtain ⟨p, o, ho, rfl⟩ : ∃ p o, o < 64 ∧ offset = 64 * p + o :=
    ⟨offset / 64, offset % 64, Nat.mod_lt _ (by norm_num), (Nat.div_add_mod _ _).symm⟩
  obtain ⟨r, rfl⟩ : ∃ r, size = 64 * p + r := ⟨size - 64 * p, by omega⟩
  have hdiv : (64 * p + o) / 64 = p := by omega
  have hmod : (64 * p + o) % 64 = o := by omega
  have htmp : ∀ j, (addr p &&& (all_ones <<< o)).getLsbD j =
      ((addr p).getLsbD j && decide (o ≤ j)) := by
    intro j
    rw [BitVec.getLsbD_and, getLsbD_high_mask]
    cases hj : (addr p).getLsbD j with
    | false => rfl
    | true => simp [BitVec.lt_of_getLsbD hj]
  simp only [find_next_bit, hdiv, hmod, Nat.mul_comm p 64, Nat.add_sub_cancel_left]
  rw [if_neg (by omega)]
  split
  · split
    · exact found_first_isFirst addr p _ (by omega) (by omega) htmp
    · next hr =>
      have ht : ∀ j, (addr p &&& (all_ones <<< o)).getLsbD j =
          ((addr p).getLsbD j && decide (o ≤ j ∧ j < 64)) := by
        intro j
        rw [htmp]
        cases hj : (addr p).getLsbD j with
        | false => rfl
        | true => simp [BitVec.lt_of_getLsbD hj]
      split
      · next hne =>
        obtain ⟨hfirst, hlt⟩ := isFirst_ffs ht hne
        exact (hfirst.of_word (Nat.le_refl 64)).extend (Nat.add_lt_add_left hlt _) (by omega)
      · next hz =>
        have hclear := (isFirst_zero (Nat.le_of_lt ho) ht (not_not.mp hz)).of_word (Nat.le_refl 64)
        have hloop := find_next_bit_loop_isFirst addr ((r - 64) % 64)
          (Nat.mod_lt _ (by norm_num)) ((r - 64) / 64) (p + 1)
        rw [Nat.mul_succ, Nat.div_add_mod] at hloop
        rw [show 64 * p + r = 64 * p + 64 + (r - 64) by omega]
        exact hloop.skip (by omega) hclear.clear
  · next hz =>
    obtain rfl : o = 0 := not_not.mp hz
    have hloop := find_next_bit_loop_isFirst addr (r % 64)
      (Nat.mod_lt _ (by norm_num)) (r / 64) p
    rw [Nat.div_add_mod] at hloop
    exact hloop

/-! ## 3. Searching for a clear bit is searching the inverted words

The two functions of the source are written out twice.  The second differs from the first in masks
that set the bits not to be looked at instead of clearing them, and in `~` at each test.  With the
words inverted these are the masks and the tests of the first, so all that was proved of one holds
of the other. -/

theorem found_first_zero_eq (tmp : BitVec 64) {size : Nat} (h : size ≤ 64) (result : Nat) :
    found_first_zero tmp size result = found_first (~~~tmp) size result := by
  have hmask : ~~~(tmp ||| (all_ones <<< size)) = ~~~tmp &&& (all_ones >>> (64 - size)) := by
    apply BitVec.eq_of_getLsbD_eq
    intro j hj
    rw [BitVec.getLsbD_and, getLsbD_low_mask h, BitVec.getLsbD_not, BitVec.getLsbD_or,
      getLsbD_high_mask, BitVec.getLsbD_not, Bool.not_or, decide_eq_true hj, Bool.true_and,
      Bool.true_and, ← decide_not]
    exact congrArg _ (decide_eq_decide.mpr Nat.not_le)
  have hiff : tmp ||| (all_ones <<< size) = all_ones ↔
      ~~~tmp &&& (all_ones >>> (64 - size)) = 0#64 := by
    rw [← hmask, ← BitVec.not_inj, BitVec.not_not]
  simp only [found_first_zero, found_first, ffz, hiff, hmask]

/-- The loop for clear bits, on words that are inverted, is the loop for set bits. -/
theorem find_next_zero_bit_loop_eq (addr : Nat → BitVec 64) {rest : Nat} (hrest : rest < 64) :
    ∀ n p result, find_next_zero_bit_loop addr rest n p result =
      find_next_bit_loop (fun i => ~~~addr i) rest n p result := by
  intro n
  induction n with
  | zero =>
    intro p result
    simp only [find_next_zero_bit_loop, find_next_bit_loop,
      found_first_zero_eq _ (Nat.le_of_lt hrest)]
  | succ n ih =>
    intro p result
    simp only [find_next_zero_bit_loop, find_next_bit_loop, ffz, ih]

/-- `find_next_zero_bit` is `find_next_bit` on the inverted words, with the first and the last word
included. -/
theorem find_next_zero_bit_eq (addr : Nat → BitVec 64) (size offset : Nat) :
    find_next_zero_bit addr size offset = find_next_bit (fun i => ~~~addr i) size offset := by
  have hmask : ~~~(addr (offset / 64) ||| (all_ones >>> (64 - offset % 64))) =
      ~~~addr (offset / 64) &&& (all_ones <<< (offset % 64)) := by
    apply BitVec.eq_of_getLsbD_eq
    intro j hj
    rw [BitVec.getLsbD_and, getLsbD_high_mask, BitVec.getLsbD_not, BitVec.getLsbD_or,
      getLsbD_low_mask (by omega), BitVec.getLsbD_not, Bool.not_or, decide_eq_true hj,
      Bool.true_and, ← decide_not]
    exact congrArg _ (decide_eq_decide.mpr Nat.not_lt)
  simp only [find_next_zero_bit, find_next_bit, ffz,
    find_next_zero_bit_loop_eq addr (Nat.mod_lt _ (by norm_num)), hmask]
  by_cases hs : size - offset / 64 * 64 < 64
  · simp only [if_pos hs, found_first_zero_eq _ (Nat.le_of_lt hs), hmask]
  · simp only [if_neg hs]

/-- **`find_next_zero_bit` returns the first clear bit** of `[offset, size)`, or `size`.  It is the
same search on the inverted words. -/
theorem find_next_zero_bit_isFirst (addr : Nat → BitVec 64) {size offset : Nat}
    (h : offset < size) :
    IsFirst (fun j => !bits addr j) offset size (find_next_zero_bit addr size offset) := by
  rw [find_next_zero_bit_eq]
  refine (find_next_bit_isFirst _ h).congr fun j _ _ => ?_
  rw [bits_not addr (by norm_num)]

/-- Behind the end nothing is found. -/
theorem find_next_zero_bit_of_le (addr : Nat → BitVec 64) {size offset : Nat}
    (h : size ≤ offset) : find_next_zero_bit addr size offset = size := by
  simp only [find_next_zero_bit, if_pos h]

/-! ## 4. Setting and clearing a range

`bitmap_set` and `bitmap_clear` have one body up to the value that is written.  The mask of a round
is a range of bits of one word, so a round is a write to a range, and the loop joins the ranges
up. -/

/-- `BITMAP_FIRST_WORD_MASK`. -/
def BITMAP_FIRST_WORD_MASK (start : Nat) : BitVec 64 := all_ones <<< (start % 64)

/-- `BITMAP_LAST_WORD_MASK`.  A size that is a multiple of 64 gives a full mask and not an empty
one. -/
def BITMAP_LAST_WORD_MASK (nbits : Nat) : BitVec 64 :=
  if nbits % 64 ≠ 0 then (1#64 <<< (nbits % 64)) - 1#64 else all_ones

/-- `*p |= mask` or `*p &= ~mask`: the word `p` gets the bits of the mask set or cleared, the other
words stay. -/
def write_mask (x : Bool) (map : Nat → BitVec 64) (p : Nat) (mask : BitVec 64) :
    Nat → BitVec 64 := fun i =>
  if i = p then (if x then map i ||| mask else map i &&& ~~~mask) else map i

/-- The `while` loop of `bitmap_set` and `bitmap_clear`, and the last word.  A round writes at
least one bit, so `nr + 1` rounds are enough. -/
def bitmap_fill_loop (x : Bool) (size : Nat) :
    Nat → (Nat → BitVec 64) → Nat → Nat → Nat → BitVec 64 → Nat → BitVec 64
  | 0, map, _, _, _, _ => map
  | fuel + 1, map, p, nr, bits, mask =>
    if bits ≤ nr then
      bitmap_fill_loop x size fuel (write_mask x map p mask) (p + 1) (nr - bits) 64 all_ones
    else if nr ≠ 0 then write_mask x map p (mask &&& BITMAP_LAST_WORD_MASK size)
    else map

/-- `bitmap_set` and `bitmap_clear` differ in the value they write. -/
def bitmap_fill (x : Bool) (map : Nat → BitVec 64) (start nr : Nat) : Nat → BitVec 64 :=
  bitmap_fill_loop x (start + nr) (nr + 1) map (start / 64) nr (64 - start % 64)
    (BITMAP_FIRST_WORD_MASK start)

/-- `bitmap_set`: bits are set. -/
def bitmap_set (map : Nat → BitVec 64) (start nr : Nat) : Nat → BitVec 64 :=
  bitmap_fill true map start nr

/-- `bitmap_clear`: bits are cleared. -/
def bitmap_clear (map : Nat → BitVec 64) (start nr : Nat) : Nat → BitVec 64 :=
  bitmap_fill false map start nr

/-- `BITMAP_LAST_WORD_MASK` of a size that ends inside a word: the bits in front of the end.  For a
size that ends with a word it is all ones, and the fillers do not use it there. -/
theorem getLsbD_last_word_mask {n j : Nat} (h : n % 64 ≠ 0) :
    (BITMAP_LAST_WORD_MASK n).getLsbD j = decide (j < n % 64) := by
  have hlt : n % 64 < 64 := Nat.mod_lt _ (by norm_num)
  generalize hk : n % 64 = k at h hlt
  have hpow : 2 ^ k < 2 ^ 64 := Nat.pow_lt_pow_right (by norm_num) hlt
  have hpos : 0 < 2 ^ k := Nat.two_pow_pos k
  have he : (1#64 <<< k) - 1#64 = BitVec.ofNat 64 (2 ^ k - 1) := by
    apply BitVec.eq_of_toNat_eq
    rw [BitVec.toNat_sub, BitVec.toNat_shiftLeft, BitVec.toNat_ofNat, BitVec.toNat_ofNat,
      Nat.shiftLeft_eq, Nat.mod_eq_of_lt (a := 1) (by norm_num), Nat.one_mul,
      Nat.mod_eq_of_lt hpow, Nat.mod_eq_of_lt (a := 2 ^ k - 1) (by omega)]
    omega
  rw [BITMAP_LAST_WORD_MASK, hk, if_pos h, he, BitVec.getLsbD_ofNat, Nat.testBit_two_pow_sub_one,
    ← Bool.decide_and]
  exact decide_eq_decide.mpr (by omega)

/-- A write through a mask is a write to a range of bits. -/
theorem bits_write_mask (x : Bool) (map : Nat → BitVec 64) {p lo hi : Nat} {mask : BitVec 64}
    (hhi : hi ≤ 64) (hmask : ∀ j < 64, mask.getLsbD j = decide (lo ≤ j ∧ j < hi)) (k : Nat) :
    bits (write_mask x map p mask) k =
      if 64 * p + lo ≤ k ∧ k < 64 * p + hi then x else bits map k := by
  obtain ⟨i, j, hj, rfl⟩ : ∃ i j, j < 64 ∧ k = 64 * i + j :=
    ⟨k / 64, k % 64, Nat.mod_lt _ (by norm_num), (Nat.div_add_mod _ _).symm⟩
  rw [bits_mul_add _ i hj, bits_mul_add _ i hj, write_mask]
  rcases eq_or_ne i p with rfl | hne
  · have hiff : (64 * i + lo ≤ 64 * i + j ∧ 64 * i + j < 64 * i + hi) ↔ (lo ≤ j ∧ j < hi) := by
      omega
    rw [if_pos rfl, if_congr hiff rfl rfl]
    have hm := hmask j hj
    cases x with
    | true =>
      rw [if_pos rfl, BitVec.getLsbD_or, hm]
      by_cases hr : lo ≤ j ∧ j < hi
      · rw [if_pos hr, decide_eq_true hr, Bool.or_true]
      · rw [if_neg hr, decide_eq_false hr, Bool.or_false]
    | false =>
      rw [if_neg Bool.false_ne_true, BitVec.getLsbD_and, BitVec.getLsbD_not, hm, decide_eq_true hj,
        Bool.true_and]
      by_cases hr : lo ≤ j ∧ j < hi
      · rw [if_pos hr, decide_eq_true hr, Bool.not_true, Bool.and_false]
      · rw [if_neg hr, decide_eq_false hr, Bool.not_false, Bool.and_true]
  · rw [if_neg hne, if_neg (by omega)]

/-- The loop writes the range that is left: `nr` bits from bit `o` of word `p` on.  The induction is
on the rounds, with the map, the word and the offset in it general: after the first round the offset
is 0 and the mask is full. -/
theorem bits_bitmap_fill_loop (x : Bool) : ∀ (fuel : Nat) (map : Nat → BitVec 64) (p nr o : Nat)
    (mask : BitVec 64), nr < fuel → o < 64 → (∀ j < 64, mask.getLsbD j = decide (o ≤ j ∧ j < 64)) →
    ∀ k, bits (bitmap_fill_loop x (64 * p + o + nr) fuel map p nr (64 - o) mask) k =
      if 64 * p + o ≤ k ∧ k < 64 * p + o + nr then x else bits map k := by
  intro fuel
  induction fuel with
  | zero => exact fun _ _ _ _ _ h => absurd h (Nat.not_lt_zero _)
  | succ fuel ih =>
    -- a whole word is written to its end and the rest is left to the induction; a part of a word is
    -- the last round
    intro map p nr o mask hfuel ho hmask k
    simp only [bitmap_fill_loop]
    split
    · next hle =>
      have hall : ∀ j < 64, all_ones.getLsbD j = decide (0 ≤ j ∧ j < 64) := by
        intro j hj
        rw [BitVec.getLsbD_not, BitVec.getLsbD_zero, Bool.not_false, Bool.and_true]
        exact decide_eq_decide.mpr (by omega)
      have h := ih (write_mask x map p mask) (p + 1) (nr - (64 - o)) 0 all_ones (by omega)
        (by norm_num) hall k
      rw [Nat.sub_zero, show 64 * (p + 1) + 0 + (nr - (64 - o)) = 64 * p + o + nr by omega,
        bits_write_mask x map (Nat.le_refl 64) hmask] at h
      rw [h]
      by_cases h1 : 64 * p + o ≤ k ∧ k < 64 * p + o + nr
      · rw [if_pos h1]
        by_cases h2 : 64 * (p + 1) + 0 ≤ k ∧ k < 64 * p + o + nr
        · rw [if_pos h2]
        · rw [if_neg h2, if_pos (by omega)]
      · rw [if_neg h1, if_neg (by omega), if_neg (by omega)]
    · next hlt =>
      split
      · next hnr =>
        have hmod : (64 * p + o + nr) % 64 = o + nr := by omega
        have hm : ∀ j < 64, (mask &&& BITMAP_LAST_WORD_MASK (64 * p + o + nr)).getLsbD j =
            decide (o ≤ j ∧ j < o + nr) := by
          intro j hj
          rw [BitVec.getLsbD_and, hmask j hj, getLsbD_last_word_mask (by omega), hmod,
            ← Bool.decide_and]
          exact decide_eq_decide.mpr (by omega)
        rw [bits_write_mask x map (by omega) hm, ← Nat.add_assoc]
      · next hnr =>
        rw [if_neg (by omega)]

/-- **`bitmap_set` and `bitmap_clear` write the `nr` bits from `start` on and no other.** -/
theorem bits_bitmap_fill (x : Bool) (map : Nat → BitVec 64) (start nr k : Nat) :
    bits (bitmap_fill x map start nr) k =
      if start ≤ k ∧ k < start + nr then x else bits map k := by
  have hmask : ∀ j < 64, (BITMAP_FIRST_WORD_MASK start).getLsbD j =
      decide (start % 64 ≤ j ∧ j < 64) := by
    intro j hj
    rw [BITMAP_FIRST_WORD_MASK, getLsbD_high_mask, Bool.and_comm, ← Bool.decide_and]
  have h := bits_bitmap_fill_loop x (nr + 1) map (start / 64) nr (start % 64) _
    (Nat.lt_succ_self nr) (Nat.mod_lt _ (by norm_num)) hmask k
  rw [Nat.div_add_mod] at h
  exact h

/-- `bitmap_set` bit by bit: in the range the bit is set, elsewhere it is what it was. -/
theorem bits_bitmap_set (map : Nat → BitVec 64) (start nr k : Nat) :
    bits (bitmap_set map start nr) k = (decide (start ≤ k ∧ k < start + nr) || bits map k) := by
  rw [bitmap_set, bits_bitmap_fill]
  by_cases h : start ≤ k ∧ k < start + nr
  · simp [h]
  · rw [if_neg h, decide_eq_false h, Bool.false_or]

/-- `bitmap_clear` bit by bit. -/
theorem bits_bitmap_clear (map : Nat → BitVec 64) (start nr k : Nat) :
    bits (bitmap_clear map start nr) k = (!decide (start ≤ k ∧ k < start + nr) && bits map k) := by
  rw [bitmap_clear, bits_bitmap_fill]
  by_cases h : start ≤ k ∧ k < start + nr
  · simp [h]
  · rw [if_neg h, decide_eq_false h, Bool.not_false, Bool.true_and]

/-! ## 5. Allocating a region

The search keeps two facts: no run of clear bits begins between the start and the first clear bit,
and none begins up to a set bit that lies within `nr` of it.  A result larger than `size` is how the
source says that there is no run.  `bitmap_alloc_region` turns it into 0, which is also what it
returns for a run at position 0. -/

/-- `__ALIGN_MASK`, in 64 bits. -/
def ALIGN_MASK (x mask : Nat) : Nat :=
  ((BitVec.ofNat 64 x + BitVec.ofNat 64 mask) &&& ~~~BitVec.ofNat 64 mask).toNat

/-- The body of `bitmap_find_next_zero_area` from the label `again` on.  Every `goto again` is from
a larger `start`, so `size + 1` rounds are enough. -/
def find_zero_area_again (map : Nat → BitVec 64) (size nr align_mask : Nat) : Nat → Nat → Nat
  | 0, _ => size + nr
  | fuel + 1, start =>
    let index := ALIGN_MASK (find_next_zero_bit map size start) align_mask
    let e := index + nr
    if size < e then e
    else
      let i := find_next_bit map e index
      if i < e then find_zero_area_again map size nr align_mask fuel (i + 1) else index

/-- `bitmap_find_next_zero_area`.  The result is larger than `size` when there is no such area. -/
def bitmap_find_next_zero_area (map : Nat → BitVec 64) (size start nr align_mask : Nat) : Nat :=
  find_zero_area_again map size nr align_mask (size + 1) start

/-- `bitmap_alloc_region`: the position, and the bitmap with the region set.  The caller cannot tell
a region at position 0 from none, since both return 0. -/
def bitmap_alloc_region (bitmap : Nat → BitVec 64) (size start nr : Nat) :
    Nat × (Nat → BitVec 64) :=
  let pos := bitmap_find_next_zero_area bitmap size start nr 0
  if size < pos then (0, bitmap) else (pos, bitmap_set bitmap pos nr)

/-- `bitmap_free_region`. -/
def bitmap_free_region (bitmap : Nat → BitVec 64) (pos nr : Nat) : Nat → BitVec 64 :=
  bitmap_clear bitmap pos nr

/-- The `nr` bits from `p` on are clear.  Nothing is said of its end: the run may be longer. -/
def ClearRun (map : Nat → BitVec 64) (p nr : Nat) : Prop :=
  ∀ j, p ≤ j → j < p + nr → bits map j = false

/-- With the mask 0, the only one that is ever passed, nothing is rounded. -/
theorem ALIGN_MASK_zero {x : Nat} (h : x < 2 ^ 64) : ALIGN_MASK x 0 = x := by
  have hz : BitVec.ofNat 64 0 = 0#64 := rfl
  have hone : ~~~(0#64) = BitVec.allOnes 64 := rfl
  rw [ALIGN_MASK, hz, BitVec.add_zero, hone, BitVec.and_allOnes, BitVec.toNat_ofNat,
    Nat.mod_eq_of_lt h]

/-- With `nr` bits wanted and nothing to align, the search ends at the first place where they are
clear, or behind the bitmap when there is none.  What has been ruled out grows with `start`: nothing
in front of it is a run of `nr` clear bits. -/
theorem find_zero_area_again_spec (map : Nat → BitVec 64) {size nr : Nat} (hsize : size < 2 ^ 64)
    (hnr : 0 < nr) : ∀ fuel start, size < start + fuel →
      let r := find_zero_area_again map size nr 0 fuel start
      (start ≤ r ∧ r + nr ≤ size ∧ ClearRun map r nr ∧ ∀ p, start ≤ p → p < r → ¬ClearRun map p nr) ∨
        (size < r ∧ ∀ p, start ≤ p → p + nr ≤ size → ¬ClearRun map p nr) := by
  intro fuel
  induction fuel with
  | zero =>
    intro start hfuel
    exact Or.inr ⟨Nat.lt_add_of_pos_right hnr, fun p hp hle => absurd hle (by omega)⟩
  | succ fuel ih =>
    intro start hfuel
    rcases Nat.lt_or_ge start size with hlt | hge
    · have hz := find_next_zero_bit_isFirst map hlt
      simp only [find_zero_area_again]
      generalize find_next_zero_bit map size start = index at hz
      have hbefore : ∀ p, start ≤ p → p < index → ¬ClearRun map p nr := by
        intro p hp hpi hrun
        have hset := hz.clear p hp hpi
        rw [hrun p (Nat.le_refl p) (by omega)] at hset
        exact Bool.false_ne_true hset.symm
      rw [ALIGN_MASK_zero (Nat.lt_of_le_of_lt hz.le hsize)]
      split
      · next he =>
        refine Or.inr ⟨he, fun p hp hle => hbefore p hp ?_⟩
        omega
      · next he =>
        have hi := find_next_bit_isFirst map (Nat.lt_add_of_pos_right hnr : index < index + nr)
        generalize find_next_bit map (index + nr) index = i at hi
        have hge := hz.ge
        have hge' := hi.ge
        split
        · next hlt' =>
          -- no run starts at or in front of the set bit `i`
          have hno : ∀ p, start ≤ p → p < i + 1 → ¬ClearRun map p nr := by
            intro p hp hpi hrun
            rcases Nat.lt_or_ge p index with h1 | h1
            · exact hbefore p hp h1 hrun
            · have hset := hi.set hlt'
              rw [hrun i (by omega) (by omega)] at hset
              exact Bool.false_ne_true hset
          rcases ih (i + 1) (by omega) with ⟨h1, h2, h3, h4⟩ | ⟨h1, h2⟩
          · refine Or.inl ⟨by omega, h2, h3, fun p hp hpr => ?_⟩
            exact (Nat.lt_or_ge p (i + 1)).elim (hno p hp) fun h => h4 p h hpr
          · refine Or.inr ⟨h1, fun p hp hle => ?_⟩
            exact (Nat.lt_or_ge p (i + 1)).elim (hno p hp) fun h => h2 p h hle
        · next hnlt =>
          refine Or.inl ⟨hge, Nat.not_lt.mp he, fun j h1 h2 => ?_, hbefore⟩
          exact hi.clear j h1 (by omega)
    · simp only [find_zero_area_again, find_next_zero_bit_of_le map hge, ALIGN_MASK_zero hsize]
      rw [if_pos (Nat.lt_add_of_pos_right hnr)]
      exact Or.inr ⟨Nat.lt_add_of_pos_right hnr, fun p hp hle => absurd hle (by omega)⟩

/-- **`bitmap_alloc_region` is first fit**: it sets the first run of `nr` clear bits, or there is
none. -/
theorem bitmap_alloc_region_cases (map : Nat → BitVec 64) (size start nr : Nat)
    (hsize : size < 2 ^ 64) (hnr : 0 < nr) :
    (∃ p, bitmap_alloc_region map size start nr = (p, bitmap_set map p nr) ∧ start ≤ p ∧
        p + nr ≤ size ∧ ClearRun map p nr ∧ ∀ p', start ≤ p' → p' < p → ¬ClearRun map p' nr) ∨
      (bitmap_alloc_region map size start nr = (0, map) ∧
        ∀ p, start ≤ p → p + nr ≤ size → ¬ClearRun map p nr) := by
  unfold bitmap_alloc_region bitmap_find_next_zero_area
  rcases find_zero_area_again_spec map hsize hnr (size + 1) start (by omega) with
    ⟨h1, h2, h3, h4⟩ | ⟨h1, h2⟩
  · exact Or.inl ⟨_, if_neg (by omega), h1, h2, h3, h4⟩
  · exact Or.inr ⟨if_pos h1, h2⟩

/-! ## 6. First fit, and back

The same search with the rounds counted shows that it comes to an end: each `goto again` starts
strictly further right.  A region that was clear is clear again after `bitmap_free_region`, and
since the bits determine the words, the bitmap is the one there was before. -/

/-- `bitmap_find_next_zero_area` from the label `again` on, in at most so many rounds: when the
last of them takes `goto again` there is no answer yet. -/
def find_zero_area_rounds (map : Nat → BitVec 64) (size nr align_mask : Nat) :
    Nat → Nat → Option Nat
  | 0, _ => none
  | rounds + 1, start =>
    let index := ALIGN_MASK (find_next_zero_bit map size start) align_mask
    let e := index + nr
    if size < e then some e
    else
      let i := find_next_bit map e index
      if i < e then find_zero_area_rounds map size nr align_mask rounds (i + 1) else some index

/-- A `goto again` goes to a larger `start`, and from `size` on there is no other. -/
theorem find_zero_area_rounds_eq (map : Nat → BitVec 64) {size nr : Nat} (hsize : size < 2 ^ 64)
    (hnr : 0 < nr) : ∀ rounds start, 0 < rounds → size < start + rounds →
      find_zero_area_rounds map size nr 0 rounds start =
        some (find_zero_area_again map size nr 0 rounds start) := by
  intro rounds
  induction rounds with
  | zero => exact fun start h => absurd h (Nat.lt_irrefl 0)
  | succ rounds ih =>
    intro start _ hrounds
    simp only [find_zero_area_rounds, find_zero_area_again]
    rcases Nat.lt_or_ge start size with hlt | hge
    · have hz := find_next_zero_bit_isFirst map hlt
      rw [ALIGN_MASK_zero (Nat.lt_of_le_of_lt hz.le hsize)]
      have hi := find_next_bit_isFirst map
        (Nat.lt_add_of_pos_right hnr : find_next_zero_bit map size start < _ + nr)
      have hstart := Nat.le_trans hz.ge hi.ge
      split
      · rfl
      · split
        · exact ih _ (by omega) (by omega)
        · rfl
    · rw [find_next_zero_bit_of_le map hge, ALIGN_MASK_zero hsize, if_pos (Nat.lt_add_of_pos_right hnr),
        if_pos (Nat.lt_add_of_pos_right hnr)]

/-- **Freeing a region undoes its allocation**, word for word. -/
theorem bitmap_free_region_set {map : Nat → BitVec 64} {p nr : Nat} (h : ClearRun map p nr) :
    bitmap_free_region (bitmap_set map p nr) p nr = map := by
  refine bits_injective (funext fun k => ?_)
  rw [bitmap_free_region, bits_bitmap_clear, bits_bitmap_set]
  by_cases hk : p ≤ k ∧ k < p + nr
  · rw [decide_eq_true hk, h k hk.1 hk.2]
    rfl
  · rw [decide_eq_false hk]
    rfl

/-- **`bitmap_alloc_region` is first fit.**  The search ends.  When the bits of some region are
clear it returns the first such region and sets its bits and no other, and `bitmap_free_region`
gives the region back without a trace; when there is none it returns 0 and changes nothing. -/
theorem bitmap_alloc_region_first_fit (bitmap : Nat → BitVec 64) (size start nr : Nat)
    (hnr : 1 ≤ nr) (hsize : size + nr < 2 ^ 31) :
    let r := bitmap_alloc_region bitmap size start nr
    let regions := {p | start ≤ p ∧ p + nr ≤ size ∧ ClearRun bitmap p nr}
    find_zero_area_rounds bitmap size nr 0 (size + 1) start =
        some (bitmap_find_next_zero_area bitmap size start nr 0) ∧
      (regions.Nonempty → IsLeast regions r.1 ∧
        (∀ k, bits r.2 k = (decide (r.1 ≤ k ∧ k < r.1 + nr) || bits bitmap k)) ∧
        bitmap_free_region r.2 r.1 nr = bitmap) ∧
      (¬regions.Nonempty → r = (0, bitmap)) := by
  intro r regions
  have hword : size < 2 ^ 64 := by omega
  refine ⟨find_zero_area_rounds_eq bitmap hword hnr _ _ (Nat.succ_pos size) (by omega), ?_⟩
  rcases bitmap_alloc_region_cases bitmap size start nr hword hnr with
    ⟨p, he, hstart, hend, hclear, hfirst⟩ | ⟨he, hnone⟩
  · have hr : r = (p, bitmap_set bitmap p nr) := he
    have hmem : p ∈ regions := ⟨hstart, hend, hclear⟩
    refine ⟨fun _ => ?_, fun hempty => absurd ⟨p, hmem⟩ hempty⟩
    rw [hr]
    refine ⟨⟨hmem, fun p' hp' => ?_⟩, bits_bitmap_set bitmap p nr, bitmap_free_region_set hclear⟩
    by_contra hlt
    exact hfirst p' hp'.1 (Nat.lt_of_not_le hlt) hp'.2.2
  · refine ⟨fun hsome => ?_, fun _ => he⟩
    obtain ⟨p, hstart, hend, hclear⟩ := hsome
    exact absurd hclear (hnone p hstart hend)

/-- With the first bit in use, a region of two bits starts behind it. -/
theorem bitmap_alloc_region_first_fit_busy :
    IsLeast {p | 0 ≤ p ∧ p + 2 ≤ 8 ∧ ClearRun (fun _ => 1#64) p 2} 1 := by
  have h := (bitmap_alloc_region_first_fit (fun _ => 1#64) 8 0 2 (by decide) (by decide)).2.1
    ⟨1, Nat.zero_le 1, by decide, fun j h1 h2 => ?_⟩
  · exact h.1
  · obtain rfl | rfl : j = 1 ∨ j = 2 := by omega
    · rfl
    · rfl

end GasFs
