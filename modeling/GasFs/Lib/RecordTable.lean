/-
# A table of records of one size

Records of `width` cells are packed into blocks, `per` to a block, from the block `base` on: the
record with index `i` starts at cell `width * (i % per)` of block `base + i / per`.  `peek` and
`blit` read and write a run of cells at any place; `Placement` says where the records lie.

Two facts carry every use of such a table.  A cell lies in one record at most (`Holds.eq`), so that
writing one record leaves the others as they were.  The first `n` blocks hold the records below
`n * per` and nothing else of them leaves those blocks (`Holds.block_lt`).

Inode lists, descriptor tables and directories of fixed entries on a device are such tables.  A
program computes the block and the offset of a record from its index by a division, in its own
arithmetic; to use the table one shows that these are `block` and `start`, and after that no offset
appears again.

A write is a `blit` of the whole record, whichever of its fields have changed.
-/
import Mathlib.Tactic.Common

namespace RecordTable

/-! ## 1. Runs of cells

A cell is whatever the device is made of here, bytes or words.  A run lies within one block. -/

section Cells

variable {α : Type} {n : Nat}

/-- The `n` cells of block `b` from cell `s` on. -/
def peek (n : Nat) (m : Nat → Nat → α) (b s : Nat) : Fin n → α := fun k => m b (s + k)

/-- Write a run of cells. -/
def blit (m : Nat → Nat → α) (b s : Nat) (r : Fin n → α) : Nat → Nat → α := fun b' w =>
  if h : b' = b ∧ s ≤ w ∧ w < s + n then r ⟨w - s, by omega⟩ else m b' w

/-- A write touches no other cell. -/
theorem blit_of_not (m : Nat → Nat → α) {b s b' w : Nat} (r : Fin n → α)
    (h : ¬(b' = b ∧ s ≤ w ∧ w < s + n)) : blit m b s r b' w = m b' w :=
  dif_neg h

/-- What was written is read back. -/
theorem peek_blit_same (m : Nat → Nat → α) (b s : Nat) (r : Fin n → α) :
    peek n (blit m b s r) b s = r := by
  funext k
  rw [peek, blit, dif_pos ⟨rfl, by omega, by omega⟩]
  congr 1
  exact Fin.ext (Nat.add_sub_cancel_left s k)

/-- Reading is reading cell by cell. -/
theorem peek_congr {m m' : Nat → Nat → α} {b s : Nat}
    (h : ∀ w, s ≤ w → w < s + n → m' b w = m b w) : peek n m' b s = peek n m b s :=
  funext fun k => h _ (by omega) (by omega)

end Cells

/-! ## 2. Where the records lie

A block need not be full: the cells from `width * per` on belong to no record. -/

/-- A table of records: its first block, the number of records in a block, and the number of cells
in a record.  A block holds at least one record. -/
structure Placement where
  base : Nat
  per : Nat
  width : Nat
  per_pos : 0 < per

namespace Placement

variable (p : Placement)

/-- The block of a record. -/
def block (i : Nat) : Nat := p.base + i / p.per

/-- The first cell of a record. -/
def start (i : Nat) : Nat := p.width * (i % p.per)

/-- The cell `w` of block `b` belongs to the record `i`. -/
def Holds (i b w : Nat) : Prop := b = p.block i ∧ p.start i ≤ w ∧ w < p.start i + p.width

variable {p} {i j b w n : Nat}

/-- A record ends where its block ends, at the latest. -/
theorem start_add_width_le (p : Placement) (i : Nat) : p.start i + p.width ≤ p.width * p.per := by
  have hlt : i % p.per < p.per := Nat.mod_lt i p.per_pos
  calc p.start i + p.width = p.width * (i % p.per + 1) := (Nat.mul_succ _ _).symm
    _ ≤ p.width * p.per := Nat.mul_le_mul_left _ hlt

/-- **A cell lies in one record at most.** The block gives the quotient of the index by `per`, and
the cell the remainder. -/
theorem Holds.eq (hi : p.Holds i b w) (hj : p.Holds j b w) : i = j := by
  obtain ⟨hb, hlo, hhi⟩ := hi
  obtain ⟨hb', hlo', hhi'⟩ := hj
  have hdiv : i / p.per = j / p.per := Nat.add_left_cancel (hb.symm.trans hb')
  have hmod : i % p.per = j % p.per := by
    have h1 : p.width * (i % p.per) < p.width * (j % p.per + 1) := Nat.lt_of_le_of_lt hlo hhi'
    have h2 : p.width * (j % p.per) < p.width * (i % p.per + 1) := Nat.lt_of_le_of_lt hlo' hhi
    have h1' := Nat.lt_of_mul_lt_mul_left h1
    have h2' := Nat.lt_of_mul_lt_mul_left h2
    omega
  rw [← Nat.div_add_mod i p.per, ← Nat.div_add_mod j p.per, hdiv, hmod]

/-- The records below `n * per` lie in the first `n` blocks. -/
theorem block_lt (hi : i < n * p.per) : p.block i < p.base + n :=
  Nat.add_lt_add_left (Nat.div_lt_of_lt_mul (by rwa [Nat.mul_comm])) _

/-- The cells of the records below `n * per` lie in the first `n` blocks, so whatever lies behind
them is safe from a write to such a record. -/
theorem Holds.block_lt (h : p.Holds i b w) (hi : i < n * p.per) :
    p.base ≤ b ∧ b < p.base + n := by
  rw [h.1]
  exact ⟨Nat.le_add_right _ _, Placement.block_lt hi⟩

end Placement

end RecordTable
