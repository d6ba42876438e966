/-
# Listing a table that changes

A reader goes through the slots of a table from front to back, some at a time.  In between others write
the table, one slot at a time: they put entries into free slots, clear slots, and add slots behind
the last one, and keep the keys unique.

Nothing moves, so an entry that is there all the time is in one slot all the time.  The reader
reports it when it passes that slot and at no other time (`Tracks`); an entry that is not there at any time
is not reported (`Step.misses`).  What comes or goes in between may be reported or not.

The promise is the one POSIX makes for `readdir`: an entry present from the beginning to the end of
a listing is returned exactly once, an entry absent all the time is not returned, and of the others
nothing is said.  It holds here because slots are never moved or compacted.  A table that fills the
gap of a removed entry with its last one would break `Uniq.stays`, and with it the promise.

`Cursor.Step` has two cases, the reader and a writer, and `Cursor.Step.tracks` is the lemma about
one step; a run of steps is an induction on it.  At the end of the table the reader has passed every
slot, and `Cursor.Tracks.reported` reads the answer off.
-/
import GasFs.Lib.SlotTable

namespace SlotTable

variable {K V : Type}

/-- The table as it is now, the number of slots the reader has passed, and what it has reported so
far. -/
structure Cursor (K V : Type) where
  table : Table K V
  pos : Nat
  got : List (K × V)

/-- The reader goes on by some number of slots, or one slot is written.  The writer may enlarge the
table, clear the slot or fill it, but keeps the keys unique and leaves every other slot alone. -/
inductive Cursor.Step (c : Cursor K V) : Cursor K V → Prop
  | read (n : Nat) : Step c ⟨c.table, c.pos + n, c.got ++ live ((c.table.drop c.pos).take n)⟩
  | write (u : Table K V) (i : Nat) (hne : ∀ s : Nat, s ≠ i → u[s]? = c.table[s]?) (hu : Uniq u) :
      Step c ⟨u, c.pos, c.got⟩

/-- The entry is in a slot, and was reported if that slot was passed.  The slot is the same all the
time, so this is an invariant and not only a description of one moment. -/
def Cursor.Tracks [BEq (K × V)] (c : Cursor K V) (e : K × V) : Prop :=
  Uniq c.table ∧ ∃ i : Nat, c.table[i]? = some (some e) ∧ c.got.count e = if i < c.pos then 1 else 0

section

variable {t u : Table K V} {c c' : Cursor K V} {e : K × V} {i : Nat}

theorem mem_live_window {k n : Nat} :
    e ∈ live ((t.drop k).take n) ↔ ∃ j < n, t[k + j]? = some (some e) := by
  rw [mem_live, List.mem_iff_getElem?]
  refine exists_congr fun j => ?_
  rw [List.getElem?_take]
  split_ifs with hj
  · rw [List.getElem?_drop]
    exact (and_iff_right hj).symm
  · exact iff_of_false (by simp) fun h => hj h.1

/-- **A window of a table shows an entry once**, if its slot is in the window. -/
theorem Uniq.count_window [BEq (K × V)] [LawfulBEq (K × V)] (hu : Uniq t) (hi : t[i]? = some (some e)) (k n : Nat) :
    (live ((t.drop k).take n)).count e = if k ≤ i ∧ i < k + n then 1 else 0 := by
  have hnodup : (live ((t.drop k).take n)).Nodup := by
    have hsub : (live ((t.drop k).take n)).Sublist (live t) :=
      ((List.take_sublist n _).trans (List.drop_sublist k t)).filterMap id
    exact (List.Nodup.of_map Prod.fst hu).sublist hsub
  split_ifs with h
  · refine List.count_eq_one_of_mem hnodup (mem_live_window.mpr ⟨i - k, ?_, ?_⟩)
    · omega
    · rw [Nat.add_sub_cancel' h.1]
      exact hi
  · refine List.count_eq_zero_of_not_mem fun hmem => h ?_
    obtain ⟨j, hj, hs⟩ := mem_live_window.mp hmem
    obtain rfl := hu.slot_inj hi hs
    exact ⟨Nat.le_add_right k j, Nat.add_lt_add_left hj k⟩

/-- **An entry that stays, stays in its slot**: another slot cannot have taken it. -/
theorem Uniq.stays (hu : Uniq t) (hi : t[i]? = some (some e)) {x : Nat}
    (hne : ∀ s : Nat, s ≠ x → u[s]? = t[s]?) (he : e ∈ live u) : u[i]? = some (some e) := by
  rcases eq_or_ne i x with rfl | hix
  · obtain ⟨s, hs⟩ := List.mem_iff_getElem?.mp (mem_live.mp he)
    rcases eq_or_ne s i with rfl | hsi
    · exact hs
    · have hs' := hs
      rw [hne s hsi] at hs'
      exact absurd (hu.slot_inj hs' hi) hsi
  · rw [hne i hix]
    exact hi

/-- **A step keeps track of an entry that is still there after it.** A reading step reports the
entry if its slot is in the window read; a writing step was at another slot. -/
theorem Cursor.Step.tracks [BEq (K × V)] [LawfulBEq (K × V)] (h : c.Step c') (ht : c.Tracks e)
    (he : e ∈ live c'.table) : c'.Tracks e := by
  obtain ⟨hu, i, hi, hcount⟩ := ht
  cases h with
  | read n =>
    refine ⟨hu, i, hi, ?_⟩
    dsimp only
    rw [List.count_append, hcount, hu.count_window hi]
    split_ifs <;> omega
  | write u x hne hu' => exact ⟨hu', i, hu.stays hi hne he, hcount⟩

/-- **What is not there is not reported.** -/
theorem Cursor.Step.misses (h : c.Step c') (hno : e ∉ c.got) (he : e ∉ live c.table) : e ∉ c'.got := by
  cases h with
  | read n =>
    rw [List.mem_append, not_or]
    refine ⟨hno, fun hmem => he ?_⟩
    obtain ⟨j, -, hs⟩ := mem_live_window.mp hmem
    exact mem_live.mpr (List.mem_of_getElem? hs)
  | write u x hne hu' => exact hno

/-- At the end every entry tracked was reported, once: its slot is in front of the position
reached. -/
theorem Cursor.Tracks.reported [BEq (K × V)] (h : c.Tracks e) (hend : c.table.length ≤ c.pos) :
    c.got.count e = 1 := by
  obtain ⟨-, i, hi, hcount⟩ := h
  rw [hcount, if_pos]
  exact Nat.lt_of_lt_of_le (List.getElem?_eq_some_iff.mp hi).1 hend

end

end SlotTable
