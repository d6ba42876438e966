/-
# First-fit slot tables

A table is a list of slots, each empty or holding a key and a value.  A new entry goes into
the first empty slot, or behind the last slot when there is none; removing an entry empties
its slot and moves nothing.  This is how directories, descriptor tables and free-list heads
are kept on disk.

`put` is the first-fit insertion, `locate` the first slot that holds a key, `lookup` the value
found there, `live` the entries in slot order.  The laws say that the table is a finite map as
long as no key is live twice (`Uniq`):

* `lookup_put_self`, `lookup_put_ne`: insertion binds its own key and no other;
* `lookup_clear_self`, `lookup_clear_ne`: clearing the slot of a key unbinds that key only;
* `live_put_perm`, `live_clear_perm`: the entries as a multiset, for counting arguments;
* `Uniq.put`, `Uniq.clear`: both operations keep keys unique.

The laws come in two kinds.  Some describe an operation slot by slot (`getElem?_put`,
`eq_put_of_getElem?`), which is what a proof about a loop over the slots produces; the others
describe it as an operation on a map, which is what the users of a table want to know.  The first
kind determines the table, so the second follows from it.

`Uniq` is needed for removal only.  A table with a key twice still finds the first of them, and
after that is removed the other one comes to light.
-/
import Mathlib.Data.List.Perm.Basic
import Mathlib.Data.List.Nodup

namespace SlotTable

variable {K V : Type} [DecidableEq K]

/-- A table: its slots in order. -/
abbrev Table (K V : Type) := List (Option (K × V))

/-- The entries, in slot order.  This is what a listing of the table shows. -/
def live (t : Table K V) : List (K × V) := t.filterMap id

/-- First-fit insertion: the first empty slot, or a new slot at the end. -/
def put : Table K V → K × V → Table K V
  | [], e => [some e]
  | none :: t, e => some e :: t
  | some a :: t, e => some a :: put t e

/-- The slot `put` uses: the first empty one, or the first past the end. -/
def hole : Table K V → Nat
  | [] => 0
  | none :: _ => 0
  | some _ :: t => hole t + 1

/-- The first slot that holds the key. -/
def locate (t : Table K V) (k : K) : Option Nat :=
  t.findIdx? fun o => o.any fun e => e.1 = k

/-- The value of the first entry with the key. -/
def lookup (t : Table K V) (k : K) : Option V :=
  ((live t).find? fun e => e.1 = k).map Prod.snd

/-- No key is live twice.  The values do not matter for it. -/
def Uniq (t : Table K V) : Prop := ((live t).map Prod.fst).Nodup

omit [DecidableEq K]

@[simp] theorem live_nil : live ([] : Table K V) = [] := rfl

@[simp] theorem live_cons_none (t : Table K V) : live (none :: t) = live t := by
  simp [live]

@[simp] theorem live_cons_some (e : K × V) (t : Table K V) : live (some e :: t) = e :: live t := by
  simp [live]

@[simp] theorem live_append (t u : Table K V) : live (t ++ u) = live t ++ live u := by
  simp [live]

theorem mem_live {t : Table K V} {e : K × V} : e ∈ live t ↔ some e ∈ t := by
  simp [live]

/-! ## 1. Insertion

`hole` is where `put` writes.  A loop that looks for a slot to reuse is compared with it by
`hole_eq_of`: all slots in front are taken, and the slot itself is empty or the end. -/

/-- **Insertion adds exactly its entry**, wherever the hole is.  As a permutation: the order changes
if the hole lies in the middle. -/
theorem live_put_perm (t : Table K V) (e : K × V) : (live (put t e)).Perm (e :: live t) := by
  induction t with
  | nil => simp [put]
  | cons o t ih =>
    cases o with
    | none => simp [put]
    | some a =>
      simp only [put, live_cons_some]
      exact (ih.cons a).trans (List.Perm.swap e a _)

/-- Every slot before the hole is taken. -/
theorem isSome_of_lt_hole {t : Table K V} {i : Nat} (h : i < hole t) :
    ∃ e, t[i]? = some (some e) := by
  induction t generalizing i with
  | nil => simp [hole] at h
  | cons o t ih =>
    cases o with
    | none => simp [hole] at h
    | some a =>
      cases i with
      | zero => exact ⟨a, rfl⟩
      | succ i => exact ih (by simpa [hole] using h)

/-- The hole is an empty slot, or the first position past the table. -/
theorem getElem?_hole (t : Table K V) : t[hole t]? = some none ∨ hole t = t.length := by
  induction t with
  | nil => exact Or.inr rfl
  | cons o t ih =>
    cases o with
    | none => exact Or.inl rfl
    | some a => simpa [hole] using ih

/-- The hole is the only position with the two properties above: what a scan for the first
reusable slot has to establish. -/
theorem hole_eq_of {t : Table K V} {i : Nat} (hlt : ∀ j < i, ∃ e, t[j]? = some (some e))
    (hi : t[i]? = some none ∨ i = t.length) : hole t = i := by
  rcases Nat.lt_trichotomy i (hole t) with h | h | h
  · obtain ⟨e, he⟩ := isSome_of_lt_hole h
    rcases hi with hi | hi
    · rw [he] at hi; simp at hi
    · subst hi; simp at he
  · exact h.symm
  · obtain ⟨e, he⟩ := hlt _ h
    rcases getElem?_hole t with hh | hh
    · rw [he] at hh; simp at hh
    · rw [hh] at he; simp at he

/-- What `put` leaves in each slot: the entry in the hole, and every other slot as it was. -/
theorem getElem?_put (t : Table K V) (e : K × V) (i : Nat) :
    (put t e)[i]? = if i = hole t then some (some e) else t[i]? := by
  induction t generalizing i with
  | nil => cases i <;> simp [put, hole]
  | cons o t ih =>
    cases o with
    | none => cases i <;> simp [put, hole]
    | some a =>
      cases i with
      | zero => simp [put, hole]
      | succ i => simp [put, hole, ih]

/-- `put` is the only table that differs from `t` by the entry in the hole. -/
theorem eq_put_of_getElem? {t u : Table K V} {e : K × V}
    (h : ∀ i, u[i]? = if i = hole t then some (some e) else t[i]?) : u = put t e :=
  List.ext_getElem? fun i => by rw [h, getElem?_put]

/-- A full table grows at its end. -/
theorem hole_of_full {t : Table K V} (h : ∀ o ∈ t, o ≠ none) : hole t = t.length := by
  induction t with
  | nil => rfl
  | cons o t ih =>
    cases o with
    | none => exact absurd rfl (h none List.mem_cons_self)
    | some a => rw [hole, ih fun o ho => h o (List.mem_cons_of_mem _ ho), List.length_cons]

theorem put_of_full {t : Table K V} (h : ∀ o ∈ t, o ≠ none) (e : K × V) :
    put t e = t ++ [some e] := by
  induction t with
  | nil => rfl
  | cons o t ih =>
    cases o with
    | none => exact absurd rfl (h none List.mem_cons_self)
    | some a => rw [put, ih fun o ho => h o (List.mem_cons_of_mem _ ho), List.cons_append]

/-! ## 2. Removal

Removal is `List.set` with an empty slot.  The table keeps its length, so no other slot moves. -/

/-- `set` is the only table that differs from `t` in one slot of it. -/
theorem eq_set_of_getElem? {t u : Table K V} {i : Nat} {o : Option (K × V)} (hi : i < t.length)
    (h : ∀ s : Nat, u[s]? = if s = i then some o else t[s]?) : u = t.set i o := by
  refine List.ext_getElem? fun s => ?_
  rw [h, List.getElem?_set]
  by_cases hs : s = i
  · rw [if_pos hs, if_pos hs.symm, if_pos hi]
  · rw [if_neg hs, if_neg (Ne.symm hs)]

/-- Removal takes exactly the entry of its slot away. -/
theorem live_clear_perm {t : Table K V} {i : Nat} {e : K × V} (h : t[i]? = some (some e)) :
    (live t).Perm (e :: live (t.set i none)) := by
  induction t generalizing i with
  | nil => simp at h
  | cons o t ih =>
    cases i with
    | zero =>
      have : o = some e := by simpa using h
      subst this
      simp
    | succ i =>
      have hp := ih (i := i) (by simpa using h)
      cases o with
      | none => simpa using hp
      | some a =>
        simp only [List.set_cons_succ, live_cons_some]
        exact (hp.cons a).trans (List.Perm.swap e a _)

/-! ## 3. Unique keys

Both operations keep keys unique, insertion under the condition that the key is absent. -/

/-- A new key put into the table leaves keys unique. -/
theorem Uniq.put {t : Table K V} (h : Uniq t) {e : K × V} (he : e.1 ∉ (live t).map Prod.fst) :
    Uniq (put t e) := by
  have hp := (live_put_perm t e).map Prod.fst
  rw [Uniq, hp.nodup_iff, List.map_cons, List.nodup_cons]
  exact ⟨he, h⟩

/-- Whatever slot is cleared, keys stay unique. -/
theorem Uniq.clear {t : Table K V} (h : Uniq t) (i : Nat) : Uniq (t.set i none) := by
  refine List.Nodup.sublist ?_ h
  refine List.Sublist.map _ ?_
  clear h
  induction t generalizing i with
  | nil => simp
  | cons o t ih =>
    cases i with
    | zero => cases o <;> simp
    | succ i =>
      cases o with
      | none => simpa using ih i
      | some a => simpa using ih i

/-- Two slots holding the same key are the same slot. -/
theorem Uniq.slot_inj {t : Table K V} (h : Uniq t) {i j : Nat} {k : K} {v w : V}
    (hi : t[i]? = some (some (k, v))) (hj : t[j]? = some (some (k, w))) : i = j := by
  induction t generalizing i j with
  | nil => simp at hi
  | cons o t ih =>
    have ht : Uniq t := by
      cases o with
      | none => simpa [Uniq] using h
      | some a => simp only [Uniq, live_cons_some, List.map_cons, List.nodup_cons] at h; exact h.2
    have hno : ∀ {n : Nat} {x y : V}, o = some (k, x) → t[n]? = some (some (k, y)) → False := by
      rintro n x y rfl hn
      simp only [Uniq, live_cons_some, List.map_cons, List.nodup_cons] at h
      refine h.1 (List.mem_map.mpr ⟨(k, y), mem_live.mpr ?_, rfl⟩)
      exact List.mem_of_getElem? hn
    cases i with
    | zero =>
      cases j with
      | zero => rfl
      | succ j => exact (hno (by simpa using hi) (by simpa using hj)).elim
    | succ i =>
      cases j with
      | zero => exact (hno (by simpa using hj) (by simpa using hi)).elim
      | succ j => exact congrArg Nat.succ (ih ht (by simpa using hi) (by simpa using hj))

/-! ## 4. The table as a map

`lookup` is what a user sees, `locate` where it is found. -/

section Lookup

variable [DecidableEq K]

@[simp] theorem lookup_nil (k : K) : lookup ([] : Table K V) k = none := rfl

@[simp] theorem lookup_cons_none (t : Table K V) (k : K) :
    lookup (none :: t) k = lookup t k := by simp [lookup]

theorem lookup_cons_some (e : K × V) (t : Table K V) (k : K) :
    lookup (some e :: t) k = if e.1 = k then some e.2 else lookup t k := by
  by_cases h : e.1 = k <;> simp [lookup, h]

theorem lookup_eq_none_iff {t : Table K V} {k : K} :
    lookup t k = none ↔ k ∉ (live t).map Prod.fst := by
  simp only [lookup, Option.map_eq_none_iff, List.find?_eq_none, decide_eq_true_eq, List.mem_map,
    not_exists, not_and]

theorem mem_live_of_lookup {t : Table K V} {k : K} {v : V} (h : lookup t k = some v) :
    (k, v) ∈ live t := by
  obtain ⟨e, he, rfl⟩ := Option.map_eq_some_iff.mp h
  have hk : e.1 = k := by simpa using List.find?_some he
  rw [← hk]
  exact List.mem_of_find?_eq_some he

/-- A key with one value finds it. -/
theorem lookup_eq_of_mem {t : Table K V} {k : K} {v : V} (h : (k, v) ∈ live t)
    (hone : ∀ w, (k, w) ∈ live t → w = v) : lookup t k = some v := by
  cases hl : lookup t k with
  | none => exact absurd (List.mem_map_of_mem (f := Prod.fst) h) (lookup_eq_none_iff.mp hl)
  | some w => rw [hone w (mem_live_of_lookup hl)]

theorem lookup_of_mem_live {t : Table K V} (hu : Uniq t) {k : K} {v : V}
    (h : (k, v) ∈ live t) : lookup t k = some v :=
  lookup_eq_of_mem h fun w hw => by
    have := List.inj_on_of_nodup_map hu hw h rfl
    rw [(Prod.mk.inj this).2]

/-- An entry put under an absent key is found. -/
theorem lookup_put_self {t : Table K V} {k : K} {v : V} (h : lookup t k = none) :
    lookup (put t (k, v)) k = some v := by
  induction t with
  | nil => simp [put, lookup_cons_some]
  | cons o t ih =>
    cases o with
    | none => simp [put, lookup_cons_some]
    | some a =>
      rw [lookup_cons_some] at h
      by_cases hk : a.1 = k
      · simp [hk] at h
      · simp only [put, lookup_cons_some, hk, if_false]
        exact ih (by simpa [hk] using h)

/-- Insertion does not change what any other key finds. -/
theorem lookup_put_ne {t : Table K V} {k k' : K} {v : V} (hne : k' ≠ k) :
    lookup (put t (k, v)) k' = lookup t k' := by
  induction t with
  | nil => simp [put, lookup_cons_some, hne.symm]
  | cons o t ih =>
    cases o with
    | none => simp [put, lookup_cons_some, hne.symm]
    | some a => simp [put, lookup_cons_some, ih]

/-- Clearing a slot does not change what any other key finds. -/
theorem lookup_clear_ne {t : Table K V} {i : Nat} {k k' : K} {v : V}
    (h : t[i]? = some (some (k, v))) (hne : k' ≠ k) :
    lookup (t.set i none) k' = lookup t k' := by
  induction t generalizing i with
  | nil => simp at h
  | cons o t ih =>
    cases i with
    | zero =>
      have : o = some (k, v) := by simpa using h
      subst this
      simp [lookup_cons_some, hne.symm]
    | succ i =>
      have hr := ih (i := i) (by simpa using h)
      cases o with
      | none => simpa using hr
      | some a => simp [lookup_cons_some, hr]

/-- Clearing the slot of a key makes it absent, when no key is live twice; else its second entry
would be found now. -/
theorem lookup_clear_self {t : Table K V} (hu : Uniq t) {i : Nat} {k : K} {v : V}
    (h : t[i]? = some (some (k, v))) : lookup (t.set i none) k = none := by
  have hp := (live_clear_perm h).map Prod.fst
  have hnd := hp.nodup_iff.mp hu
  rw [List.map_cons, List.nodup_cons] at hnd
  exact lookup_eq_none_iff.mpr hnd.1

theorem locate_eq_some_iff {t : Table K V} {k : K} {i : Nat} :
    locate t k = some i ↔
      (∃ v, t[i]? = some (some (k, v))) ∧ ∀ j < i, ∀ v, t[j]? ≠ some (some (k, v)) := by
  rw [locate, List.findIdx?_eq_some_iff_getElem]
  constructor
  · rintro ⟨hlt, hi, hmin⟩
    refine ⟨?_, fun j hj v hv => ?_⟩
    · rw [Option.any_eq_true] at hi
      obtain ⟨e, he, hk⟩ := hi
      exact ⟨e.2, by rw [List.getElem?_eq_getElem hlt, he, ← of_decide_eq_true hk]⟩
    · have hjl : j < t.length := by omega
      have := hmin j hj
      rw [List.getElem?_eq_getElem hjl] at hv
      simp [Option.some.inj hv] at this
  · rintro ⟨⟨v, hv⟩, hmin⟩
    have hlt := (List.getElem?_eq_some_iff.mp hv).1
    have hget := (List.getElem?_eq_some_iff.mp hv).2
    refine ⟨hlt, by simp [hget], fun j hj => ?_⟩
    have hjl : j < t.length := by omega
    cases ho : t[j] with
    | none => simp
    | some e =>
      have := hmin j hj e.2
      rw [List.getElem?_eq_getElem hjl, ho] at this
      simp only [Option.any_some, decide_eq_true_eq]
      intro he
      exact this (by rw [← he])

/-- What a key finds depends on the slots that hold it.  Slots with other keys may change as they
like. -/
theorem locate_congr {t u : Table K V} {k : K}
    (h : ∀ (s : Nat) (v : V), u[s]? = some (some (k, v)) ↔ t[s]? = some (some (k, v))) :
    locate u k = locate t k := by
  refine Option.ext fun i => ?_
  rw [locate_eq_some_iff, locate_eq_some_iff]
  simp only [ne_eq, h]

theorem locate_eq_none_iff {t : Table K V} {k : K} : locate t k = none ↔ lookup t k = none := by
  rw [locate, List.findIdx?_eq_none_iff, lookup_eq_none_iff]
  constructor
  · intro h hm
    obtain ⟨e, he, rfl⟩ := List.mem_map.mp hm
    have := h _ (mem_live.mp he)
    simp at this
  · intro h o ho
    cases o with
    | none => rfl
    | some e =>
      simp only [Option.any_some, decide_eq_false_iff_not]
      rintro rfl
      exact h (List.mem_map_of_mem (mem_live.mpr ho))

/-- No slot of a table without the key holds it. -/
theorem not_slot_of_locate_none {t : Table K V} {k : K} (h : locate t k = none) (i : Nat) (v : V) :
    t[i]? ≠ some (some (k, v)) := by
  intro hi
  rw [locate_eq_none_iff, lookup_eq_none_iff] at h
  exact h (List.mem_map.mpr ⟨(k, v), mem_live.mpr (List.mem_of_getElem? hi), rfl⟩)

theorem locate_take_none {t : Table K V} {k : K} (h : locate t k = none) (n : Nat) :
    locate (t.take n) k = none := by
  rw [locate, List.findIdx?_eq_none_iff] at h ⊢
  exact fun o ho => h o (List.mem_of_mem_take ho)

/-- **`locate` and `lookup` agree**: the slot found holds the value looked up.  A program that goes
through the slots and one that goes through the entries give the same answer. -/
theorem lookup_of_locate {t : Table K V} {k : K} {i : Nat} (h : locate t k = some i) :
    ∃ v, t[i]? = some (some (k, v)) ∧ lookup t k = some v := by
  obtain ⟨⟨v, hv⟩, hmin⟩ := locate_eq_some_iff.mp h
  refine ⟨v, hv, ?_⟩
  clear h
  induction t generalizing i with
  | nil => simp at hv
  | cons o t ih =>
    cases i with
    | zero =>
      have : o = some (k, v) := by simpa using hv
      subst this
      simp [lookup_cons_some]
    | succ i =>
      have hrec := ih (i := i) (fun j hj w hw => hmin (j + 1) (by omega) w (by simpa using hw))
        (by simpa using hv)
      cases o with
      | none => simpa using hrec
      | some a =>
        have hne : a.1 ≠ k := fun e => hmin 0 (by omega) a.2 (by rw [← e]; rfl)
        rw [lookup_cons_some, if_neg hne, hrec]

end Lookup

end SlotTable
