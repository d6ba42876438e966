/-
# The order in which `gas_new_block` hands out blocks

`gas_new_block` searches the map blocks from the hint on, going round, and each map block from its
first bit on.  It sets the bit it finds and leaves the hint at that map block.  So the free bits, in
the order of the search, are a queue (`Vol.free_order`): a call takes the first of it and leaves the
rest in order, and it fails exactly when the queue is empty (`gas_new_block_free_order`).

The map blocks that the search passes have no free bit.  They come last in the order from the new
hint, where they add nothing, which is why moving the hint does not disturb the order.

The queue is a description and not a data structure of the source; nothing is stored but the map and
the hint.  It is used in two places.  An allocation of several blocks takes an initial part of the
queue, which says which blocks it gets and not only that it gets some; and the number of blocks in
the queue is the number of free ones, which says when it succeeds.

The proof is about rounds.  A search that stops after `s` rounds has passed `s` full map blocks;
from the new hint they are the last ones (`round_from`), and a full map block contributes nothing to
the queue.
-/
import GasFs.Bitmap
import Mathlib.Data.Nat.ModEq

namespace GasFs

/-! ## 1. One map block

The clear bits in increasing order, of which a search takes the first. -/

/-- The clear bits of a map block. -/
def free_bits (map : Nat → Bool) (bits : Nat) : List Nat :=
  (List.range bits).filter fun bit => !map bit

theorem mem_free_bits {map : Nat → Bool} {bits bit : Nat} :
    bit ∈ free_bits map bits ↔ bit < bits ∧ map bit = false := by
  rw [free_bits, List.mem_filter, List.mem_range, Bool.not_eq_true']

theorem free_bits_congr {map map' : Nat → Bool} {bits : Nat} (h : ∀ bit, map' bit = map bit) :
    free_bits map' bits = free_bits map bits := by
  rw [funext h]

theorem find_first_zero_bit_eq_head (map : Nat → Bool) (bits : Nat) :
    find_first_zero_bit map bits = (free_bits map bits).head?.getD bits := by
  rw [free_bits, List.head?_filter, find_first_zero_bit]

theorem free_bits_eq_nil {map : Nat → Bool} {bits : Nat} (h : ¬find_first_zero_bit map bits < bits) :
    free_bits map bits = [] := by
  rcases find_first_zero_bit_spec map bits with ⟨hlt, -⟩ | ⟨-, hfull⟩
  · exact absurd hlt h
  · refine List.eq_nil_iff_forall_not_mem.mpr fun bit hbit => ?_
    obtain ⟨hlt, hclear⟩ := mem_free_bits.mp hbit
    rw [hfull bit hlt] at hclear
    exact Bool.false_ne_true hclear.symm

/-- Setting the first clear bit takes it off the list. -/
theorem free_bits_eq_cons {map map' : Nat → Bool} {bits bit : Nat}
    (hbit : bit = find_first_zero_bit map bits) (hlt : bit < bits)
    (hset : ∀ k, map' k = if k = bit then true else map k) :
    free_bits map bits = bit :: free_bits map' bits := by
  have hrest : free_bits map' bits = (free_bits map bits).filter fun k => decide (k ≠ bit) := by
    rw [free_bits, free_bits, List.filter_filter]
    refine List.filter_congr fun k _ => ?_
    rw [hset]
    rcases eq_or_ne k bit with rfl | hne
    · simp
    · simp [hne]
  have hnodup : (free_bits map bits).Nodup := List.nodup_range.filter _
  rw [find_first_zero_bit_eq_head] at hbit
  cases hl : free_bits map bits with
  | nil =>
    rw [hbit, hl] at hlt
    exact absurd hlt (Nat.lt_irrefl bits)
  | cons k l =>
    rw [hl] at hbit hnodup hrest
    obtain rfl : bit = k := hbit
    obtain ⟨hnot, -⟩ := List.nodup_cons.mp hnodup
    rw [hrest, List.filter_cons_of_neg (by simp), List.filter_eq_self.mpr]
    intro k hk
    rw [decide_eq_true_eq]
    rintro rfl
    exact hnot hk

/-! ## 2. All map blocks

A round begins at the hint. -/

/-- The clear bits of map block `i`, with its index. -/
def block_places (map : Nat → Nat → Bool) (bits i : Nat) : List (Nat × Nat) :=
  (free_bits (map i) bits).map (Prod.mk i)

/-- The clear bits of `n` map blocks in the order of the search from the block `last`. -/
def free_places (map : Nat → Nat → Bool) (bits n last : Nat) : List (Nat × Nat) :=
  (List.range n).flatMap fun round => block_places map bits ((last + round) % n)

theorem mem_free_places {map : Nat → Nat → Bool} {bits n last i bit : Nat} (hn : 0 < n)
    (h : (i, bit) ∈ free_places map bits n last) : i < n ∧ bit < bits ∧ map i bit = false := by
  obtain ⟨round, -, hp⟩ := List.mem_flatMap.mp h
  obtain ⟨k, hk, he⟩ := List.mem_map.mp hp
  obtain ⟨rfl, rfl⟩ := Prod.mk.inj he
  obtain ⟨hlt, hclear⟩ := mem_free_bits.mp hk
  exact ⟨Nat.mod_lt _ hn, hlt, hclear⟩

/-- Where the search of `map_search` stops, and what it has passed: after `s` rounds, at the first
clear bit of that map block, with no clear bit in the blocks before. -/
theorem map_search_round {n : Nat} {map : Nat → Nat → Bool} {bits : Nat} {last j : Fin n} {bit : Nat} :
    ∀ (fuel t : Nat) (i : Fin n), t < n → i.val = (last.val + t) % n →
      map_search map bits last fuel i = some (j, bit) →
      ∃ s, t ≤ s ∧ s < n ∧ j.val = (last.val + s) % n ∧ bit = find_first_zero_bit (map j) bits ∧
        bit < bits ∧ ∀ r, t ≤ r → r < s → block_places map bits ((last.val + r) % n) = [] := by
  intro fuel
  induction fuel with
  | zero => exact fun t i _ _ h => absurd h (by simp [map_search])
  | succ fuel ih =>
    intro t i ht hi h
    rw [map_search] at h
    split_ifs at h with hbit hlast
    · obtain ⟨rfl, rfl⟩ := Prod.mk.inj (Option.some.inj h)
      exact ⟨t, Nat.le_refl t, ht, hi, rfl, hbit, fun r hle hlt => absurd hlt (Nat.not_lt.mpr hle)⟩
    · have hmore : t + 1 ≠ n := fun he => hlast ((next_map_eq_last_iff ht hi).mpr he)
      have hi' : (next_map i).val = (last.val + (t + 1)) % n := by
        simp only [next_map, hi, Nat.mod_add_mod]
        rw [Nat.add_assoc]
      obtain ⟨s, hle, hlt, hj, hfirst, hb, hpassed⟩ :=
        ih (t + 1) (next_map i) (Nat.lt_of_le_of_ne ht hmore) hi' h
      refine ⟨s, Nat.le_of_succ_le hle, hlt, hj, hfirst, hb, fun r hr hrs => ?_⟩
      rcases Nat.eq_or_lt_of_le hr with rfl | hr
      · rw [← hi, block_places, free_bits_eq_nil hbit]
        rfl
      · exact hpassed r hr hrs

/-- A search without a result has no free bit before it. -/
theorem free_places_eq_nil {n : Nat} {map : Nat → Nat → Bool} {bits : Nat} {last : Fin n}
    (h : map_search map bits last n last = none) : free_places map bits n last = [] := by
  have hfull := (map_search_eq_none_iff map bits last).mp h
  refine List.eq_nil_iff_forall_not_mem.mpr fun p hp => ?_
  obtain ⟨hi, hbit, hclear⟩ := mem_free_places last.pos hp
  rw [hfull p.1 hi p.2 hbit] at hclear
  exact Bool.false_ne_true hclear.symm

/-- A round through `n` places, cut before its place `s`. -/
theorem round_cut {α : Type} (f : Nat → List α) {n s m : Nat} (hn : n = s + (m + 1)) (last : Nat) :
    (List.range n).flatMap (fun r => f ((last + r) % n)) =
      (List.range s).flatMap (fun r => f ((last + r) % n)) ++ (f ((last + s) % n) ++
        (List.range m).flatMap fun r => f ((last + s + (r + 1)) % n)) := by
  have hrange : List.range n = List.range s ++ (List.range (m + 1)).map (s + ·) := by
    rw [hn, List.range_add]
  rw [hrange, List.flatMap_append, List.flatMap_map, List.range_succ_eq_map, List.flatMap_cons,
    List.flatMap_map]
  simp only [Nat.add_zero, Nat.add_assoc]

/-- The same round from that place on: the first `s` places come last. -/
theorem round_from {α : Type} (f : Nat → List α) {n s m : Nat} (hn : n = s + (m + 1)) (last : Nat) :
    (List.range n).flatMap (fun r => f (((last + s) % n + r) % n)) =
      f ((last + s) % n) ++ ((List.range m).flatMap fun r => f ((last + s + (r + 1)) % n)) ++
        (List.range s).flatMap fun r => f ((last + r) % n) := by
  have hrange : List.range n = List.range (m + 1) ++ (List.range s).map (m + 1 + ·) := by
    rw [hn, Nat.add_comm s, List.range_add]
  have hback : ∀ r, (last + s + (m + 1 + r)) % n = (last + r) % n := fun r => by
    rw [show last + s + (m + 1 + r) = last + r + n by omega, Nat.add_mod_right]
  rw [hrange, List.flatMap_append, List.flatMap_map, List.range_succ_eq_map, List.flatMap_cons,
    List.flatMap_map]
  simp only [Nat.mod_add_mod, Nat.mod_mod, Nat.add_zero, hback, Nat.succ_eq_add_one]

/-- **The search takes the first free bit and leaves the others in order**: from its new place, with
the bit set, the rest of the queue.  The map blocks that were passed have moved to the end of the
round. -/
theorem free_places_eq_cons {n : Nat} {map : Nat → Nat → Bool} {bits bit : Nat} {last i : Fin n}
    (h : map_search map bits last n last = some (i, bit)) :
    free_places map bits n last = (i.val, bit) :: free_places (write_bit map i bit true) bits n i := by
  obtain ⟨s, -, hs, hi, hfirst, hbit, hpassed⟩ := map_search_round n 0 last last.pos
    (by rw [Nat.add_zero, Nat.mod_eq_of_lt last.isLt]) h
  obtain ⟨m, hm⟩ : ∃ m, n = s + (m + 1) := ⟨n - s - 1, by omega⟩
  have hhere : block_places map bits i =
      (i.val, bit) :: block_places (write_bit map i bit true) bits i := by
    have hset : ∀ k, write_bit map i bit true i k = if k = bit then true else map i k := fun k => by
      simp [write_bit]
    rw [block_places, free_bits_eq_cons hfirst hbit hset]
    rfl
  have hother : ∀ j, j ≠ i.val →
      block_places (write_bit map i bit true) bits j = block_places map bits j := by
    intro j hj
    rw [block_places, free_bits_congr fun k => write_bit_of_ne fun he => hj he.1]
    rfl
  -- the blocks behind `i` are not `i`, and those passed have no free bit
  have hbehind : ∀ r ∈ List.range m, block_places (write_bit map i bit true) bits
      ((last.val + s + (r + 1)) % n) = block_places map bits ((last.val + s + (r + 1)) % n) := by
    refine fun r hr => hother _ fun he => ?_
    have hr := List.mem_range.mp hr
    have hcancel : (r + 1) % n = 0 % n :=
      Nat.ModEq.add_left_cancel' (last.val + s) (he.trans (by rw [Nat.add_zero, hi]))
    rw [Nat.zero_mod, Nat.mod_eq_of_lt (by omega)] at hcancel
    exact Nat.succ_ne_zero r hcancel
  have hlast : ∀ r ∈ List.range s,
      block_places (write_bit map i bit true) bits ((last.val + r) % n) = [] := by
    intro r hr
    have hempty := hpassed r (Nat.zero_le r) (List.mem_range.mp hr)
    rw [hother _ fun he => ?_, hempty]
    rw [he, hhere] at hempty
    exact List.cons_ne_nil _ _ hempty
  have hold := round_cut (block_places map bits) hm last
  have hnew := round_from (block_places (write_bit map i bit true) bits) hm last
  rw [List.flatMap_eq_nil_iff.mpr fun r hr => hpassed r (Nat.zero_le r) (List.mem_range.mp hr),
    List.nil_append, ← hi, hhere] at hold
  rw [List.flatMap_eq_nil_iff.mpr hlast, List.append_nil, List.flatMap_congr hbehind, ← hi] at hnew
  rw [free_places, hold, free_places, hnew, List.cons_append]

/-! ## 3. The queue of a volume

Block numbers instead of bits. -/

/-- The numbers of the free bits of the block map, in the order in which `gas_new_block` returns
them. -/
def Vol.free_order (v : Vol) : List Nat :=
  (free_places v.bam v.sbi.s_bits_per_block v.sbi.s_bam_blocks v.s_bam_last).map fun p =>
    map_number v p.1 p.2

theorem mem_free_order {v : Vol} {b : Nat} (h : b ∈ v.free_order) :
    ∃ i < v.sbi.s_bam_blocks, ∃ bit < v.sbi.s_bits_per_block,
      v.bam i bit = false ∧ b = map_number v i bit := by
  obtain ⟨⟨i, bit⟩, hp, rfl⟩ := List.mem_map.mp h
  obtain ⟨hi, hbit, hclear⟩ := mem_free_places v.s_bam_last.pos hp
  exact ⟨i, hi, bit, hbit, hclear, rfl⟩

/-- **`gas_new_block` takes the first block of the queue**; it fails when there is none.  Contents
are not touched. -/
theorem gas_new_block_free_order (v : Vol) :
    (v.free_order = [] ∧ gas_new_block v = (0, some .ENOSPC, v)) ∨
      ∃ b v', v.free_order = b :: v'.free_order ∧ gas_new_block v = (b, none, v') ∧
        v'.sbi = v.sbi ∧ v'.words = v.words := by
  cases h : map_search v.bam v.sbi.s_bits_per_block v.s_bam_last v.sbi.s_bam_blocks v.s_bam_last with
  | none => exact Or.inl ⟨by rw [Vol.free_order, free_places_eq_nil h]; rfl, by rw [gas_new_block, h]⟩
  | some p =>
    obtain ⟨i, bit⟩ := p
    refine Or.inr ⟨map_number v i bit,
      { v with bam := write_bit v.bam i bit true, s_bam_last := i }, ?_, ?_, rfl, rfl⟩
    · rw [Vol.free_order, free_places_eq_cons h]
      rfl
    · rw [gas_new_block, h]
      rfl

/-- **The block `b` was taken**: it was a free data block and the first of the queue; now it is
marked, and the other blocks keep their marks and their order. -/
structure Taken (v : Vol) (b : Nat) (v' : Vol) : Prop where
  step : BlockStep v v'
  words : v'.words = v.words
  zone : v.InZone b
  free : v.inUse b = false
  marks : ∀ x, v'.inUse x = if x = b then true else v.inUse x
  queue : v.free_order = b :: v'.free_order

/-- **A call takes a block, or there is none.** -/
theorem gas_new_block_taken {v : Vol} (hg : MapGeometry v) (hp : v.MapPadded) :
    (∃ b v', gas_new_block v = (b, none, v') ∧ Taken v b v') ∨
      (gas_new_block v = (0, some .ENOSPC, v) ∧ v.BamFull ∧ v.free_order = []) := by
  rcases gas_new_block_cases hg hp with ⟨b, hint, he, hzone, hfree⟩ | ⟨he, hfull⟩
  · rcases gas_new_block_free_order v with ⟨-, he'⟩ | ⟨b', v', hqueue, he', -, hwords⟩
    · simp [he] at he'
    · obtain ⟨hb, hrest⟩ := Prod.mk.inj (he.symm.trans he')
      obtain ⟨-, hv⟩ := Prod.mk.inj hrest
      subst hb hv
      exact Or.inl ⟨b, _, he', ⟨_, _, _, _, rfl⟩, hwords, hzone, hfree,
        fun x => write_bit_block v.bam x b true, hqueue⟩
  · rcases gas_new_block_free_order v with ⟨hnil, -⟩ | ⟨b', v', -, he', -⟩
    · exact Or.inr ⟨he, hfull, hnil⟩
    · simp [he] at he'

theorem Taken.padded {v v' : Vol} {b : Nat} (h : Taken v b v') (hp : v.MapPadded) : v'.MapPadded := by
  intro x hx hz
  rw [h.step.sbi] at hx
  rw [h.step.inZone] at hz
  rw [h.marks]
  split
  · rfl
  · exact hp x hx hz

/-- The number that `gas_new_block` returns is a free data block's, as long as the padding is set. -/
theorem zone_of_mem_free_order {v : Vol} (hg : MapGeometry v) (hp : v.MapPadded) {b : Nat}
    (hb : b ∈ v.free_order) : v.InZone b := by
  obtain ⟨i, hi, bit, hbit, hclear, rfl⟩ := mem_free_order hb
  obtain ⟨hnum, hzone, -⟩ := clear_bit_block hg hp hi hbit hclear
  rw [hnum]
  exact hzone

/-- If the map block of the hint has a free bit, the queue begins there. -/
theorem free_order_at_hint {v : Vol} {bit : Nat}
    (hfirst : find_first_zero_bit (v.bam v.s_bam_last) v.sbi.s_bits_per_block = bit)
    (hbit : bit < v.sbi.s_bits_per_block) :
    v.free_order = map_number v v.s_bam_last bit ::
      ({ v with bam := write_bit v.bam v.s_bam_last bit true } : Vol).free_order := by
  obtain ⟨n, hn⟩ := Nat.exists_eq_succ_of_ne_zero (Nat.ne_of_gt v.s_bam_last.pos)
  have hsearch : map_search v.bam v.sbi.s_bits_per_block v.s_bam_last v.sbi.s_bam_blocks
      v.s_bam_last = some (v.s_bam_last, bit) := by
    have hstep : ∀ fuel, map_search v.bam v.sbi.s_bits_per_block v.s_bam_last (fuel + 1)
        v.s_bam_last = some (v.s_bam_last, bit) := fun fuel => by
      rw [map_search, hfirst, if_pos hbit]
    exact Eq.trans (congrArg (fun fuel => map_search _ _ _ fuel _) hn) (hstep n)
  rw [Vol.free_order, free_places_eq_cons hsearch]
  rfl

/-- When a map block has a power of two of bits, a block number has 32 bits. -/
theorem map_number_lt {v : Vol} (hbits : v.sbi.s_bits_per_block ∣ 4294967296) {i bit : Nat}
    (hbit : bit < v.sbi.s_bits_per_block) : map_number v i bit < 4294967296 := by
  obtain ⟨k, hk⟩ := hbits
  have hpos : 0 < k := by
    rcases Nat.eq_zero_or_pos k with rfl | hpos
    · rw [Nat.mul_zero] at hk
      exact absurd hk (by decide)
    · exact hpos
  rw [map_number, u32, hk, Nat.mul_comm i, Nat.mul_mod_mul_left]
  calc bit + v.sbi.s_bits_per_block * (i % k)
      < v.sbi.s_bits_per_block + v.sbi.s_bits_per_block * (i % k) := Nat.add_lt_add_right hbit _
    _ = v.sbi.s_bits_per_block * (i % k + 1) := by ring
    _ ≤ v.sbi.s_bits_per_block * k := Nat.mul_le_mul_left _ (Nat.mod_lt i hpos)

end GasFs
