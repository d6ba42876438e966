/-
# A directory as a table of slots

The records of a directory, in the order of their pages, are the slots of a table in the sense of
`Lib/SlotTable.lean`: `Inode.slots`.  Slot `t` is the record number `t % 15` of page `t / 15`.

`DirOk` is what every directory keeps: it ends with a whole record that is not the unusable tail
of a page, every record in it has a NUL in its last name byte, and the pages behind the end are
blank.  For such a directory the scan of `find_record` is a search of the slots
(`find_record_eq`), and `gas_find_entry` is `locate` (`gas_find_entry_eq`).

Whether pages can be read is kept apart from what they hold.  `find_record_eq` is a search over all
slots in which those of unreadable pages do not count; with all pages readable it is the search of
the table.  So the same lemma serves the statement about directories as maps and the one about a
directory that is taken for empty.

`Blank` is about bytes that belong to no record, at the end of each page.  Functions that stay
within the records neither read nor write them, so it is kept apart from `DirOk`, and only results
on listings ask for it.
-/
import GasFs.Dir
import GasFs.Itree.Lookup
import GasFs.Lib.SlotTable
import Mathlib.Data.List.Find

namespace GasFs

open Bytes SlotTable

/-! ## 1. Slots

Coordinates of a slot, and the entry in it. -/

/-- The entry in a record; a free record has none.  The name ends at the first NUL. -/
def slotAt (kaddr : Mem) (p : Nat) : Option (List UInt8 × Nat) :=
  if de_inode kaddr p = 0 then none else some (cstr kaddr p GAS_MAX_NAME_LEN, de_inode kaddr p)

/-- The page and the offset of a slot.  Fifteen records of 260 bytes fit a page, and 196 bytes are
left. -/
def slotPos (t : Nat) : Nat × Nat := (t / 15, 260 * (t % 15))

/-- The entry in a slot.  It is defined for every number; those from `nslots` on are no entries. -/
def Inode.slot (inode : Inode) (t : Nat) : Option (List UInt8 × Nat) :=
  slotAt (inode.pages (slotPos t).1) (slotPos t).2

/-- The number of slots: 15 for each full page, and those of the last page.  The bytes behind them,
at the end of a full page, are not counted. -/
def Inode.nslots (inode : Inode) : Nat :=
  15 * (inode.i_size / PAGE_CACHE_SIZE) + inode.i_size % PAGE_CACHE_SIZE / sizeof_gas_dir_entry

/-- The table.  All that the directory functions do is told in its terms. -/
def Inode.slots (inode : Inode) : Table (List UInt8) Nat :=
  (List.range inode.nslots).map inode.slot

/-- A directory name: 1 to 255 bytes, none of them NUL. The VFS passes no others. -/
structure IsName (name : List UInt8) : Prop where
  nonul : (0 : UInt8) ∉ name
  pos : name ≠ []
  le : name.length ≤ 255

/-- What every directory keeps: its size is a whole number of records, names are closed, and nothing
is written behind its last page.  The last page is never empty, so the size tells the number of
records. -/
structure DirOk (inode : Inode) : Prop where
  size : ∃ P m, 1 ≤ m ∧ m ≤ 15 ∧ inode.i_size = 4096 * P + 260 * m
  closed : ∀ t < inode.nslots, inode.pages (slotPos t).1 ((slotPos t).2 + 255) = 0
  past : ∀ n a, inode.i_size ≤ 4096 * n → a < 4096 → inode.pages n a = 0

/-- The tails of the pages, in which no record fits, are blank. -/
def Blank (inode : Inode) : Prop := ∀ n a, 3900 ≤ a → a < 4096 → inode.pages n a = 0

/-- The dimensions of a directory: its full pages and the records of the last page. -/
structure Dims (inode : Inode) (P m : Nat) : Prop where
  pos : 1 ≤ m
  le : m ≤ 15
  size : inode.i_size = 4096 * P + 260 * m
  nslots : inode.nslots = 15 * P + m
  pages : gas_dir_pages inode = P + 1
  last : ∀ n, gas_last_byte inode n = if n = P then 260 * m else 4096

theorem DirOk.dims {inode : Inode} (h : DirOk inode) : ∃ P m, Dims inode P m := by
  obtain ⟨P, m, hpos, hle, hs⟩ := h.size
  have hdiv : inode.i_size / 4096 = P := by omega
  have hmod : inode.i_size % 4096 = 260 * m := by omega
  refine ⟨P, m, hpos, hle, hs, ?_, ?_, fun n => ?_⟩
  · rw [Inode.nslots, hdiv, hmod]
    show 15 * P + 260 * m / 260 = 15 * P + m
    omega
  · rw [gas_dir_pages, hs]
    show (4096 * P + 260 * m + 4096 - 1) / 4096 = P + 1
    omega
  · rw [gas_last_byte, hdiv, hmod]

@[simp] theorem length_slots (inode : Inode) : inode.slots.length = inode.nslots := by
  simp [Inode.slots]

theorem getElem?_slots (inode : Inode) (t : Nat) :
    inode.slots[t]? = if t < inode.nslots then some (inode.slot t) else none := by
  by_cases h : t < inode.nslots
  · rw [if_pos h, Inode.slots, List.getElem?_map, List.getElem?_range h]; rfl
  · rw [if_neg h]; simp [h]

theorem getElem?_slots_eq_some {inode : Inode} {t : Nat} {o : Option (List UInt8 × Nat)} :
    inode.slots[t]? = some o ↔ t < inode.nslots ∧ inode.slot t = o := by
  rw [getElem?_slots]
  split <;> simp_all

/-- The two coordinates of a slot number. -/
theorem slotPos_add {n j : Nat} (hj : j < 15) : slotPos (15 * n + j) = (n, 260 * j) := by
  rw [slotPos, Nat.mul_add_div (by omega), Nat.div_eq_of_lt hj, Nat.mul_add_mod,
    Nat.mod_eq_of_lt hj, Nat.add_zero]

/-- A record lies inside its page, in front of the tail. -/
theorem slotPos_le (t : Nat) : (slotPos t).2 + 260 ≤ 3900 := by
  have := Nat.mod_lt t (show 0 < 15 by omega)
  simp only [slotPos]
  omega

/-- Different slots are different records: they lie in different pages or apart.  So a change of one
leaves the bytes of the other. -/
theorem slotPos_apart {s t : Nat} (h : s ≠ t) : (slotPos s).1 ≠ (slotPos t).1 ∨
    (slotPos s).2 + 260 ≤ (slotPos t).2 ∨ (slotPos t).2 + 260 ≤ (slotPos s).2 := by
  simp only [slotPos]
  omega

/-- A record is read from its 260 bytes. -/
theorem record_congr {kaddr kaddr' : Mem} {p : Nat}
    (h : ∀ a, p ≤ a → a < p + 260 → kaddr a = kaddr' a) :
    de_inode kaddr p = de_inode kaddr' p ∧ cstr kaddr p 256 = cstr kaddr' p 256 := by
  constructor
  · refine le32_congr fun k hk => h _ ?_ ?_
    · show p ≤ p + 256 + k
      omega
    · show p + 256 + k < p + 260
      omega
  · exact cstr_congr fun k hk => h _ (by omega) (by omega)

theorem slotAt_congr {kaddr kaddr' : Mem} {p : Nat}
    (h : ∀ a, p ≤ a → a < p + 260 → kaddr a = kaddr' a) : slotAt kaddr p = slotAt kaddr' p := by
  obtain ⟨hde, hstr⟩ := record_congr h
  simp only [slotAt, hde, hstr]

theorem slotAt_eq_none {kaddr : Mem} {p : Nat} : slotAt kaddr p = none ↔ de_inode kaddr p = 0 := by
  unfold slotAt
  split <;> simp_all

/-- A live entry holds a number other than `0`. -/
theorem slotAt_ino_ne_zero {kaddr : Mem} {p ino : Nat} {name : List UInt8}
    (h : slotAt kaddr p = some (name, ino)) : ino ≠ 0 := by
  unfold slotAt at h
  split at h
  · simp at h
  · rename_i hne
    rw [← (Prod.mk.inj (Option.some.inj h)).2]
    exact hne

/-- The test of `gas_find_entry` reads the slot. -/
theorem is_named_iff {kaddr : Mem} {p : Nat} {name : List UInt8} (hn : IsName name) :
    is_named name kaddr p = true ↔ ∃ ino, slotAt kaddr p = some (name, ino) := by
  have hlen := hn.le
  unfold is_named slotAt
  simp only [Bool.and_eq_true, bne_iff_ne, ne_eq, beq_iff_eq, strncmp_eq_zero_iff,
    cstr_ofList hn.nonul, List.take_of_length_le (show name.length ≤ 256 by omega)]
  by_cases h0 : de_inode kaddr p = 0 <;> simp [h0]

/-- A record with a closed name is compared on 255 bytes as on 256.  `gas_find_entry` compares the
whole field, `gas_add_link` one byte less. -/
theorem strncmp_closed {kaddr : Mem} {p : Nat} {name : List UInt8} (hn : IsName name)
    (hz : kaddr (p + 255) = 0) :
    strncmp kaddr p (ofList name) 0 255 = 0 ↔ cstr kaddr p 256 = name := by
  have hcstr : cstr kaddr p 256 = cstr kaddr p 255 := by
    by_cases hlt : (cstr kaddr p 255).length < 255
    · exact cstr_of_length_lt hlt (by omega)
    · have hle := cstr_length_le kaddr 255 p
      have hfull : (cstr kaddr p 256).length ≤ 255 := by
        by_contra hgt
        have h256 : 255 < (cstr kaddr p 256).length := by omega
        have hmem := List.getElem_mem h256
        rw [getElem_cstr h256, hz] at hmem
        exact zero_notMem_cstr _ _ _ hmem
      rw [cstr_take kaddr 255 p 256 (by omega), List.take_of_length_le hfull]
  rw [strncmp_eq_zero_iff, cstr_ofList hn.nonul, List.take_of_length_le hn.le, hcstr]

/-! ## 2. Scanning

The loops over pages and records as a search over slots. -/

/-- A test that reads nothing but the record.  So it gives the same answer on any page that has the
record's bytes at the same place. -/
def Local (test : Mem → Nat → Bool) : Prop := ∀ kaddr kaddr' p,
  (∀ a, p ≤ a → a < p + 260 → kaddr a = kaddr' a) → test kaddr p = test kaddr' p

theorem is_named_local (name : List UInt8) : Local (is_named name) := by
  intro kaddr kaddr' p h
  obtain ⟨hde, hstr⟩ := record_congr h
  rw [Bool.eq_iff_iff]
  simp only [is_named, hde, Bool.and_eq_true, beq_iff_eq, strncmp_eq_zero_iff, hstr]

theorem page_address_of_lt {c : Ctx} {t n a : Nat} (h : a < 4096) :
    c.page_address t n a = c.inode.pages n a := if_pos h

/-- The records of a page are the slots of the page.  This is the step from offsets in a page to
numbers in the table. -/
theorem map_slotPos_range' {n k : Nat} (hk : k ≤ 15) :
    (List.range' (15 * n) k).map slotPos = ((List.range k).map (260 * ·)).map (n, ·) := by
  rw [List.range'_eq_map_range, List.map_map, List.map_map]
  refine List.map_congr_left fun j hj => ?_
  exact slotPos_add (by have := List.mem_range.mp hj; omega)

theorem records_last {inode : Inode} {P m : Nat} (hd : Dims inode P m) (n : Nat) :
    records (gas_last_byte inode n) = (List.range (if n = P then m else 15)).map (260 * ·) := by
  rw [records, hd.last]
  split
  · rw [Nat.mul_div_cancel_left _ (by omega)]
  · rfl

/-- The pages from `n` on, one slot after the other.  The induction is on the number of pages still
to come. -/
theorem find_record_from {test : Mem → Nat → Bool} (ht : Local test) {P m : Nat} :
    ∀ (count n : Nat) (c : Ctx), Dims c.inode P m → n + count = P + 1 →
      (find_record test count n c).1 =
        ((List.range' (15 * n) (c.inode.nslots - 15 * n)).map slotPos).find? fun q =>
          c.v.env.pgread (c.v.tick + (q.1 - n)) && test (c.inode.pages q.1) q.2
  | 0, n, c, hd, hn => by
    have hz : c.inode.nslots - 15 * n = 0 := by rw [hd.nslots]; have := hd.le; omega
    rw [hz]
    rfl
  | count + 1, n, c, hd, hn => by
    have hle := hd.le
    have hrec := find_record_from ht count (n + 1) { c with v := { c.v with tick := c.v.tick + 1 } }
      hd (by omega)
    -- the slots of page `n`, and the rest
    have hsplit : (List.range' (15 * n) (c.inode.nslots - 15 * n)).map slotPos =
        ((records (gas_last_byte c.inode n)).map (n, ·)) ++
          (List.range' (15 * (n + 1)) (c.inode.nslots - 15 * (n + 1))).map slotPos := by
      rw [records_last hd, ← map_slotPos_range' (by split <;> omega), ← List.map_append, hd.nslots]
      by_cases hnP : n = P
      · rw [if_pos hnP, hnP, show 15 * P + m - 15 * (P + 1) = 0 by omega,
          show 15 * P + m - 15 * P = m by omega]
        simp
      · rw [if_neg hnP, Nat.mul_succ, List.range'_append_1]
        congr 2
        omega
    have hrest : ((List.range' (15 * (n + 1)) (c.inode.nslots - 15 * (n + 1))).map slotPos).find?
          (fun q => c.v.env.pgread (c.v.tick + (q.1 - n)) && test (c.inode.pages q.1) q.2) =
        (find_record test count (n + 1) { c with v := { c.v with tick := c.v.tick + 1 } }).1 := by
      rw [hrec]
      refine List.find?_congr fun q hq => ?_
      obtain ⟨t, ht', rfl⟩ := List.mem_map.mp hq
      have hge : n + 1 ≤ (slotPos t).1 := by
        have := (List.mem_range'_1.mp ht').1
        simp only [slotPos]
        omega
      rw [show c.v.tick + 1 + ((slotPos t).1 - (n + 1)) = c.v.tick + ((slotPos t).1 - n) by omega]
    rw [hsplit, List.find?_append, hrest, List.find?_map, find_record, gas_dir_get_page]
    cases hp : c.v.env.pgread c.v.tick with
    | false =>
      have hnone : (records (gas_last_byte c.inode n)).find? ((fun q : Nat × Nat =>
          c.v.env.pgread (c.v.tick + (q.1 - n)) && test (c.inode.pages q.1) q.2) ∘ (n, ·)) =
          none := by
        simp [hp]
      rw [hnone]
      rfl
    | true =>
      have hcongr : (records (gas_last_byte c.inode n)).find? ((fun q : Nat × Nat =>
            c.v.env.pgread (c.v.tick + (q.1 - n)) && test (c.inode.pages q.1) q.2) ∘ (n, ·)) =
          (records (gas_last_byte c.inode n)).find? (test (c.page_address c.v.tick n)) := by
        refine List.find?_congr fun p hmem => ?_
        rw [records_last hd] at hmem
        obtain ⟨j, hj, rfl⟩ := List.mem_map.mp hmem
        have hj15 : j < 15 := by
          have := List.mem_range.mp hj
          split at this <;> omega
        simp only [Function.comp_apply, Nat.sub_self, Nat.add_zero, hp, Bool.true_and]
        refine ht _ _ _ fun a h1 h2 => (page_address_of_lt ?_).symm
        have h260 : a < 260 * j + 260 := h2
        omega
      rw [hcongr]
      simp only [if_true]
      cases (records (gas_last_byte c.inode n)).find? (test (c.page_address c.v.tick n)) <;> rfl

/-- **The scan over the pages is a search of the slots**, those of unreadable pages left out. -/
theorem find_record_eq {test : Mem → Nat → Bool} (ht : Local test) {c : Ctx} (hd : DirOk c.inode) :
    (find_record test (gas_dir_pages c.inode) 0 c).1 =
      ((List.range c.inode.nslots).find? fun t =>
        c.v.env.pgread (c.v.tick + (slotPos t).1) &&
          test (c.inode.pages (slotPos t).1) (slotPos t).2).map slotPos := by
  obtain ⟨P, m, hdim⟩ := hd.dims
  rw [hdim.pages, find_record_from ht (P + 1) 0 c hdim (by omega), List.find?_map,
    List.range_eq_range']
  rfl

/-- Searching the numbers below `n` gives the first of them. -/
theorem find?_range_eq_findIdx? {n : Nat} {p : Nat → Bool} :
    (List.range n).find? p = (List.range n).findIdx? p := by
  cases h : (List.range n).findIdx? p with
  | none => simpa using h
  | some i =>
    obtain ⟨hi, hp, hmin⟩ := List.findIdx?_eq_some_iff_getElem.mp h
    rw [List.find?_range_eq_some]
    rw [List.length_range] at hi
    refine ⟨by simpa using hp, List.mem_range.mpr hi, fun j hj => ?_⟩
    simpa using hmin j hj

/-- **`gas_find_entry` finds the first slot with the name**, when the pages can be read.  With
unique names it is the only one. -/
theorem gas_find_entry_eq {c : Ctx} (hd : DirOk c.inode) {name : List UInt8} (hn : IsName name)
    (hio : ∀ n, c.v.env.pgread n = true) :
    (gas_find_entry c name).1 = (locate c.inode.slots name).map slotPos := by
  rw [gas_find_entry, find_record_eq (is_named_local name) hd, locate, Inode.slots,
    List.findIdx?_map, find?_range_eq_findIdx?]
  congr 2
  funext t
  rw [Bool.eq_iff_iff]
  simp only [hio, Bool.true_and, is_named_iff hn, Function.comp_apply, Inode.slot,
    Option.any_eq_true, decide_eq_true_eq]
  constructor
  · rintro ⟨ino, h⟩
    exact ⟨_, h, rfl⟩
  · rintro ⟨e, h, rfl⟩
    exact ⟨e.2, h⟩

/-- Whatever can be read, the record found is in use and has the name.  It need not be the first
with the name, if a page in front could not be read. -/
theorem gas_find_entry_some {c : Ctx} (hd : DirOk c.inode) {name : List UInt8} (hn : IsName name)
    {n p : Nat} (h : (gas_find_entry c name).1 = some (n, p)) :
    ∃ t ino, slotPos t = (n, p) ∧ c.inode.slots[t]? = some (some (name, ino)) := by
  rw [gas_find_entry, find_record_eq (is_named_local name) hd, Option.map_eq_some_iff] at h
  obtain ⟨t, ht, hpos⟩ := h
  obtain ⟨htest, hmem, -⟩ := List.find?_range_eq_some.mp ht
  obtain ⟨ino, hs⟩ := (is_named_iff hn).mp (Bool.and_eq_true_iff.mp htest).2
  exact ⟨t, ino, hpos, getElem?_slots_eq_some.mpr ⟨List.mem_range.mp hmem, hs⟩⟩

/-- The scans change nothing but the number of requests. -/
theorem find_record_ticked (test : Mem → Nat → Bool) : ∀ (count n : Nat) (c : Ctx),
    Ticked c (find_record test count n c).2
  | 0, _, c => Ticked.refl c
  | count + 1, n, c => by
    have hrec := find_record_ticked test count (n + 1)
      { c with v := { c.v with tick := c.v.tick + 1 } }
    have h1 : Ticked c { c with v := { c.v with tick := c.v.tick + 1 } } := ⟨_, rfl⟩
    rw [find_record, gas_dir_get_page]
    cases c.v.env.pgread c.v.tick with
    | false => exact h1.trans hrec
    | true =>
      simp only [if_true]
      cases (records (gas_last_byte c.inode n)).find? (test (c.page_address c.v.tick n)) with
      | none => exact h1.trans hrec
      | some p => exact h1

theorem gas_find_entry_ticked (c : Ctx) (name : List UInt8) :
    Ticked c (gas_find_entry c name).2 := find_record_ticked _ _ 0 c

theorem gas_empty_dir_ticked (c : Ctx) : Ticked c (gas_empty_dir c).2 := find_record_ticked _ _ 0 c

end GasFs
