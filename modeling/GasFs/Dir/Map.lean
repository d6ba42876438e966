/-
# A directory is a finite map

`found` is what `gas_find_entry` tells about a name: the record, and the number in it.  `Reached`
are the directories that successful calls of `gas_add_link` and `gas_delete_entry` lead to, from a
set of first directories and under a condition on the names added.

`reached_is_map` says that adding an absent name binds it, that deleting an entry unbinds its
name, and that neither is noticed by any other name.  Deleting needs the names to have been added
only when absent: `gas_add_link` stops comparing at the first free slot, so it enters a name a
second time when there is a free slot in front of the first one (`deleted_name_still_found`).

A directory begins in one of two ways: `gas_make_empty` writes it, or it is the root of a new
volume, whose first page `mkfs.gas` has written over whatever the block held.  In the second case
the tail of the page need not be blank, which matters to a listing and not here (`RootBlock`).

Names are bytes, 1 to 255 of them and none NUL (`IsName`); the VFS passes no others.  Numbers are
nonzero 32-bit numbers, since a record with number 0 is free.
-/
import GasFs.Dir.Room

namespace GasFs

open Bytes SlotTable

/-! ## 1. What a name finds

On the side of the slots this is `locate`. -/

/-- The record found for a name, and the number it holds.  The number is read from the page, as
`gas_inode_by_name` and `gas_rename` do it. -/
def found (c : Ctx) (name : List UInt8) : Option ((Nat × Nat) × Nat) :=
  (gas_find_entry c name).1.map fun q => (q, de_inode (c.inode.pages q.1) q.2)

/-- No record in use has the name.  It is a property of the table, and by `found_eq_none` also one
of what the source finds. -/
def Absent (inode : Inode) (name : List UInt8) : Prop := locate inode.slots name = none

theorem found_eq_some {c : Ctx} (hd : DirOk c.inode) {name : List UInt8} (hn : IsName name)
    (hio : ∀ n, c.v.env.pgread n = true) {q : Nat × Nat} {ino : Nat} :
    found c name = some (q, ino) ↔ ∃ t, locate c.inode.slots name = some t ∧ slotPos t = q ∧
      c.inode.slots[t]? = some (some (name, ino)) := by
  rw [found, gas_find_entry_eq hd hn hio, Option.map_map, Option.map_eq_some_iff]
  refine exists_congr fun t => and_congr_right fun ht => ?_
  obtain ⟨v, hv, -⟩ := lookup_of_locate ht
  have hde : de_inode (c.inode.pages (slotPos t).1) (slotPos t).2 = v := by
    have hs := (getElem?_slots_eq_some.mp hv).2
    unfold Inode.slot slotAt at hs
    split at hs
    · simp at hs
    · exact (Prod.mk.inj (Option.some.inj hs)).2
  rw [hv]
  simp [hde, Prod.ext_iff]

theorem found_eq_none {c : Ctx} (hd : DirOk c.inode) {name : List UInt8} (hn : IsName name)
    (hio : ∀ n, c.v.env.pgread n = true) : found c name = none ↔ Absent c.inode name := by
  rw [found, gas_find_entry_eq hd hn hio, Absent]
  simp

/-- Two directories whose slots hold a name at the same places find the same. -/
theorem found_congr {c c' : Ctx} (hd : DirOk c.inode) (hd' : DirOk c'.inode) {name : List UInt8}
    (hn : IsName name) (hio : ∀ n, c.v.env.pgread n = true) (hio' : ∀ n, c'.v.env.pgread n = true)
    (h : ∀ (s v : Nat), c'.inode.slots[s]? = some (some (name, v)) ↔
      c.inode.slots[s]? = some (some (name, v))) : found c' name = found c name := by
  refine Option.ext fun ⟨q, ino⟩ => ?_
  rw [found_eq_some hd hn hio, found_eq_some hd' hn hio', locate_congr h]
  simp only [h]

/-! ## 2. Runs

The condition `G` on the names added is a parameter: any name, or names that are absent. -/

/-- The directories reached from `S` by successful calls; the names added meet `G`.  A record to be
deleted is one that `gas_find_entry` has just found.  A call that fails leaves the table as it is,
so runs of successful calls lose nothing. -/
inductive Reached (S : Ctx → Prop) (G : Inode → List UInt8 → Prop) : Ctx → Prop
  | start (c : Ctx) (hs : S c) : Reached S G c
  | add (c c' : Ctx) (name : List UInt8) (ino : Nat) (hr : Reached S G c) (hn : IsName name)
      (hg : G c.inode name) (h : gas_add_link c name ino = (c', none)) : Reached S G c'
  | delete (c c1 c' : Ctx) (name : List UInt8) (n p : Nat) (hr : Reached S G c) (hn : IsName name)
      (hf : gas_find_entry c name = (some (n, p), c1)) (h : gas_delete_entry c1 n p = (c', none)) :
      Reached S G c'

/-- A directory just made by `gas_make_empty` in a new inode. -/
def Made (c' : Ctx) : Prop :=
  ∃ c dir, c.inode.i_size = 0 ∧ (∀ n a, a < 4096 → c.inode.pages n a = 0) ∧
    gas_make_empty c dir = (c', none)

/-- The root directory as `mkfs.gas` leaves it: two records written over a stale block.  Behind the
two records it holds what was on the device before the volume was made. -/
def RootBlock (c : Ctx) : Prop :=
  c.inode.i_size = 520 ∧
    (∃ stale, ∀ a < 4096, c.inode.pages 0 a =
      write_entry (write_entry stale 0 dot GAS_ROOT_INO) 260 dotdot GAS_ROOT_INO a) ∧
    ∀ n a, 1 ≤ n → a < 4096 → c.inode.pages n a = 0

/-- Any name may be added. -/
abbrev AnyName : Inode → List UInt8 → Prop := fun _ _ => True

theorem isName_dot : IsName dot := ⟨by decide, by decide, by decide⟩

theorem isName_dotdot : IsName dotdot := ⟨by decide, by decide, by decide⟩

theorem Made.spec {c' : Ctx} (h : Made c') :
    DirOk c'.inode ∧ Blank c'.inode ∧ Uniq c'.inode.slots := by
  obtain ⟨c, dir, hs, hp, hm⟩ := h
  have hspec := gas_make_empty_spec hs (fun n a _ => hp n a) dir
  rw [hm] at hspec
  obtain ⟨-, ⟨e, he, -⟩ | ⟨-, hok, hb, hslots⟩⟩ := hspec
  · simp at he
  · refine ⟨hok, hb, ?_⟩
    rw [hslots, Uniq, entryOf, entryOf]
    split_ifs <;> simp [live, dot, dotdot]

theorem RootBlock.spec {c : Ctx} (h : RootBlock c) :
    DirOk c.inode ∧
      c.inode.slots = [some (dot, GAS_ROOT_INO), some (dotdot, GAS_ROOT_INO)] := by
  obtain ⟨hs, ⟨stale, h0⟩, hp⟩ := h
  obtain ⟨hw, hz⟩ := write_entry_spec stale 0 isName_dot GAS_ROOT_INO
  obtain ⟨hw', hz'⟩ := write_entry_spec (write_entry stale 0 dot GAS_ROOT_INO) 260 isName_dotdot
    GAS_ROOT_INO
  have hns : c.inode.nslots = 2 := by
    rw [Inode.nslots, hs]
    rfl
  have hslot0 : c.inode.slot 0 = some (dot, GAS_ROOT_INO) := by
    rw [Inode.slot, show slotPos 0 = (0, 0) from rfl]
    rw [slotAt_congr fun a _ h2 => h0 a (by omega)]
    rw [slotAt_congr fun a _ h2 => write_entry_outside (Or.inl (by omega)), hw]
    rfl
  have hslot1 : c.inode.slot 1 = some (dotdot, GAS_ROOT_INO) := by
    rw [Inode.slot, show slotPos 1 = (0, 260) from rfl]
    rw [slotAt_congr fun a _ h2 => h0 a (by omega), hw']
    rfl
  refine ⟨⟨⟨0, 2, by omega, by omega, hs⟩, fun t ht => ?_, fun n a hle ha => hp n a (by omega) ha⟩,
    ?_⟩
  · rw [hns] at ht
    have hcase : t = 0 ∨ t = 1 := by omega
    rcases hcase with rfl | rfl
    · show c.inode.pages 0 255 = 0
      rw [h0 255 (by omega), write_entry_outside (Or.inl (by omega))]
      exact hz
    · show c.inode.pages 0 515 = 0
      rw [h0 515 (by omega)]
      exact hz'
  · rw [Inode.slots, hns, ← hslot0, ← hslot1]
    rfl

section
variable {S : Ctx → Prop} {G : Inode → List UInt8 → Prop} {c c' : Ctx} {name : List UInt8}

/-- Deleting what was found.  The scan does not change the inode, so the record is still there when
it is deleted. -/
theorem delete_found_spec (hd : DirOk c.inode) (hn : IsName name) {c1 : Ctx} {n p : Nat}
    (hf : gas_find_entry c name = (some (n, p), c1)) (h : gas_delete_entry c1 n p = (c', none)) :
    ∃ t ino, slotPos t = (n, p) ∧ c.inode.slots[t]? = some (some (name, ino)) ∧
      Updated t none c.inode c'.inode := by
  obtain ⟨t, ino, hpos, hs⟩ := gas_find_entry_some hd hn (by rw [hf])
  have hin : c1.inode = c.inode := by
    have ht := gas_find_entry_ticked c name
    rw [hf] at ht
    exact ht.inode
  have hspec := gas_delete_entry_spec (c := c1) (t := t) (by rw [hin]; exact hd)
    (by rw [hin]; exact (getElem?_slots_eq_some.mp hs).1)
  rw [hpos, h, hin] at hspec
  obtain ⟨-, ⟨e, he, -⟩ | ⟨-, hup⟩⟩ := hspec
  · simp at he
  · exact ⟨t, ino, hpos, hs, hup⟩

theorem add_link_success (hd : DirOk c.inode) (hn : IsName name) {ino : Nat}
    (h : gas_add_link c name ino = (c', none)) :
    Passed c.inode name (hole c.inode.slots) ∧
      Updated (hole c.inode.slots) (entryOf name ino) c.inode c'.inode := by
  have hspec := gas_add_link_spec hd hn ino
  rw [h] at hspec
  obtain ⟨-, ⟨e, he, -⟩ | ⟨-, hp, hup⟩⟩ := hspec
  · simp at he
  · exact ⟨hp, hup⟩

/-- **Every directory reached is well formed.** -/
theorem Reached.dirOk (hS : ∀ c, S c → DirOk c.inode) (h : Reached S G c) : DirOk c.inode := by
  induction h with
  | start c hs => exact hS c hs
  | add c c' name ino _ hn _ h ih => exact (add_link_success ih hn h).2.ok
  | delete c c1 c' name n p _ hn hf h ih =>
    obtain ⟨t, ino, -, -, hup⟩ := delete_found_spec ih hn hf h
    exact hup.ok

theorem Reached.blank (hS : ∀ c, S c → DirOk c.inode ∧ Blank c.inode) (h : Reached S G c) :
    Blank c.inode := by
  induction h with
  | start c hs => exact (hS c hs).2
  | add c c' name ino hr hn _ h ih =>
    exact (add_link_success (hr.dirOk fun c hs => (hS c hs).1) hn h).2.blank ih
  | delete c c1 c' name n p hr hn hf h ih =>
    obtain ⟨t, ino, -, -, hup⟩ := delete_found_spec (hr.dirOk fun c hs => (hS c hs).1) hn hf h
    exact hup.blank ih

/-- Writing over the hole keeps names unique, if the name is new.  The slot written was free, so no
entry is lost by it. -/
theorem Updated.uniq_add {i i' : Inode} {ino : Nat}
    (h : Updated (hole i.slots) (entryOf name ino) i i') (hu : Uniq i.slots)
    (habs : Absent i name) : Uniq i'.slots := by
  by_cases h0 : u32 ino = 0
  · -- number 0: the record stays free
    have he : entryOf name ino = none := if_pos h0
    rw [he] at h
    rcases getElem?_hole i.slots with hh | hh
    · have hlt := (List.getElem?_eq_some_iff.mp hh).1
      rw [eq_set_of_getElem? hlt h.getElem?]
      exact hu.clear _
    · have happ : i'.slots = i.slots ++ [none] := by
        refine List.ext_getElem? fun s => ?_
        rw [h.getElem?, hh]
        rcases Nat.lt_trichotomy s i.slots.length with hs | hs | hs
        · rw [if_neg (by omega), List.getElem?_append_left hs]
        · subst hs
          simp
        · rw [if_neg (by omega), List.getElem?_eq_none (by omega), List.getElem?_eq_none]
          rw [List.length_append, List.length_singleton]
          omega
      rw [happ, Uniq, live_append]
      simpa [Uniq] using hu
  · have he : entryOf name ino = some (name, u32 ino) := if_neg h0
    rw [he] at h
    rw [eq_put_of_getElem? h.getElem?]
    exact hu.put (lookup_eq_none_iff.mp (locate_eq_none_iff.mp habs))

/-- **Names added only when absent stay unique.** The VFS looks a name up before it asks for it to
be added.  Without the condition on names this fails, as `deleted_name_still_found` shows. -/
theorem Reached.uniq (hS : ∀ c, S c → DirOk c.inode ∧ Uniq c.inode.slots)
    (h : Reached S Absent c) : Uniq c.inode.slots := by
  induction h with
  | start c hs => exact (hS c hs).2
  | add c c' name ino hr hn hg h ih =>
    exact (add_link_success (hr.dirOk fun c hs => (hS c hs).1) hn h).2.uniq_add ih hg
  | delete c c1 c' name n p hr hn hf h ih =>
    obtain ⟨t, ino, -, hs, hup⟩ := delete_found_spec (hr.dirOk fun c hs => (hS c hs).1) hn hf h
    rw [eq_set_of_getElem? (List.getElem?_eq_some_iff.mp hs).1 hup.getElem?]
    exact ih.clear t

/-! ## 3. Adding and deleting

The two operations in terms of what names find. -/

/-- The size has the form `4096 * P + 260 * m` with `1 ≤ m ≤ 15`.  The directory is never without a
record, and never ends inside one. -/
def SizeOk (i : Inode) : Prop := ∃ P m, 1 ≤ m ∧ m ≤ 15 ∧ i.i_size = 4096 * P + 260 * m

/-- What adding `name` for `ino` does.  The record may be the first hole, a new one on the last
page, or the first one of a new page. -/
structure Adds (name : List UInt8) (ino : Nat) (c c' : Ctx) : Prop where
  size : SizeOk c'.inode
  /-- the name finds the number, in a record inside one page -/
  bound : ∃ n p, found c' name = some ((n, p), ino) ∧ p + 260 ≤ 4096
  others : ∀ other, IsName other → other ≠ name → found c' other = found c other
  /-- no live entry is overwritten -/
  kept : ∀ (s : Nat) (e : List UInt8 × Nat), c.inode.slots[s]? = some (some e) →
    c'.inode.slots[s]? = some (some e)

/-- What deleting the record found for `name` does, but for the name itself.  Other records stay
where they are, those with the same name included. -/
structure Deletes (name : List UInt8) (q : Nat × Nat) (c c' : Ctx) : Prop where
  size : SizeOk c'.inode
  others : ∀ other, IsName other → other ≠ name → found c' other = found c other
  kept : ∀ (s : Nat) (e : List UInt8 × Nat), slotPos s ≠ q → c.inode.slots[s]? = some (some e) →
    c'.inode.slots[s]? = some (some e)

theorem adds_of_success (hd : DirOk c.inode) (hio : ∀ n, c.v.env.pgread n = true)
    (hn : IsName name) (habs : Absent c.inode name) {ino : Nat} (hpos : 0 < ino)
    (hlt : ino < 4294967296) (h : gas_add_link c name ino = (c', none)) : Adds name ino c c' := by
  have hio' : ∀ n, c'.v.env.pgread n = true := by
    have henv := (gas_add_link_blockStep hd hn ino).env
    rw [h] at henv
    rw [henv]
    exact hio
  obtain ⟨-, hup⟩ := add_link_success hd hn h
  have he : entryOf name ino = some (name, ino) := by
    rw [entryOf, u32_of_lt hlt, if_neg (by omega)]
  rw [he] at hup
  have hself : locate c'.inode.slots name = some (hole c.inode.slots) := by
    rw [locate_eq_some_iff]
    refine ⟨⟨ino, by rw [hup.getElem?, if_pos rfl]⟩, fun j hj v hv => ?_⟩
    rw [hup.getElem?, if_neg (by omega)] at hv
    have hloc : locate c.inode.slots name ≠ none := by
      rw [ne_eq, locate_eq_none_iff, lookup_eq_none_iff, not_not]
      exact List.mem_map.mpr ⟨(name, v), mem_live.mpr (List.mem_of_getElem? hv), rfl⟩
    exact hloc habs
  refine ⟨hup.ok.size, ⟨_, _, (found_eq_some hup.ok hn hio').mpr
    ⟨_, hself, rfl, by rw [hup.getElem?, if_pos rfl]⟩, ?_⟩, fun other hno hne => ?_, fun s e hs => ?_⟩
  · have := slotPos_le (hole c.inode.slots)
    omega
  · refine found_congr hd hup.ok hno hio hio' fun s v => ?_
    rw [hup.getElem?]
    by_cases hs : s = hole c.inode.slots
    · rw [if_pos hs, hs]
      constructor
      · intro hv
        simp [Ne.symm hne] at hv
      · intro hv
        rcases getElem?_hole c.inode.slots with hh | hh
        · rw [hh] at hv
          simp at hv
        · rw [hh] at hv
          simp at hv
    · rw [if_neg hs]
  · rw [hup.getElem?, if_neg, hs]
    rintro rfl
    rcases getElem?_hole c.inode.slots with hh | hh
    · rw [hh] at hs
      simp at hs
    · rw [hh] at hs
      simp at hs

theorem deletes_of_success (hd : DirOk c.inode) (hio : ∀ n, c.v.env.pgread n = true)
    (hn : IsName name) {c1 : Ctx} {n p : Nat} (hf : gas_find_entry c name = (some (n, p), c1))
    (h : gas_delete_entry c1 n p = (c', none)) :
    Deletes name (n, p) c c' ∧ (Uniq c.inode.slots → found c' name = none) := by
  have hio' : ∀ n, c'.v.env.pgread n = true := by
    have ht := gas_find_entry_ticked c name
    rw [hf] at ht
    have henv := (gas_delete_entry_blockStep c1 n p).env
    rw [h] at henv
    rw [henv, ht.env]
    exact hio
  obtain ⟨t, ino, hpos, hs, hup⟩ := delete_found_spec hd hn hf h
  refine ⟨⟨hup.ok.size, fun other hno hne => ?_, fun s e hne hse => ?_⟩, fun hu => ?_⟩
  · refine found_congr hd hup.ok hno hio hio' fun s v => ?_
    rw [hup.getElem?]
    by_cases hst : s = t
    · rw [if_pos hst, hst, hs]
      simp [Ne.symm hne]
    · rw [if_neg hst]
  · rw [hup.getElem?, if_neg, hse]
    rintro rfl
    exact hne hpos
  · rw [found_eq_none hup.ok hn hio', Absent, locate_eq_none_iff,
      eq_set_of_getElem? (List.getElem?_eq_some_iff.mp hs).1 hup.getElem?]
    exact lookup_clear_self hu hs

end

/-- The chunks `gas_add_link` and `gas_delete_entry` may write can be prepared: their blocks are
mapped or free. -/
def BlocksAvailable (c : Ctx) : Prop :=
  ∀ (c1 : Ctx) (n p : Nat), Cleared c c1 → n ≤ gas_dir_pages c.inode → p < PAGE_CACHE_SIZE →
    (gas_dir_prepare_chunk c1 (PAGE_CACHE_SIZE * n + p) sizeof_gas_dir_entry).2 = none

/-- With readable pages and blocks to write to, an absent name can be added. -/
theorem add_link_succeeds {c : Ctx} (hd : DirOk c.inode) (hio : ∀ n, c.v.env.pgread n = true)
    (hav : BlocksAvailable c) {name : List UInt8} (hn : IsName name) (habs : Absent c.inode name)
    (ino : Nat) : (gas_add_link c name ino).2 = none := by
  have hscan := gas_add_link_scan hd hn ino
  generalize gas_add_link c name ino = r at hscan
  cases hscan with
  | unread c1 ht n hp hr =>
    rw [hio] at hr
    exact absurd hr (by simp)
  | present c1 ht t v hs hp =>
    have := (List.findIdx?_eq_none_iff.mp habs) _ (List.mem_of_getElem? hs)
    simp at this
  | free c1 hc t ht hp _ _ =>
    obtain ⟨P, m, hdim⟩ := hd.dims
    have hm := hdim.le
    have hle := slotPos_le t
    have htle : t ≤ c.inode.nslots := by
      rcases ht with h | h
      · exact (getElem?_slots_eq_some.mp h).1.le
      · omega
    have hprep := hav c1 (slotPos t).1 (slotPos t).2 hc (by
      rw [hdim.pages]
      rw [hdim.nslots] at htle
      show t / 15 ≤ P + 1
      omega) (by show (slotPos t).2 < 4096; omega)
    unfold got_it
    dsimp only
    generalize gas_dir_prepare_chunk c1 (PAGE_CACHE_SIZE * (slotPos t).1 + (slotPos t).2)
      sizeof_gas_dir_entry = r at hprep
    obtain ⟨c2, _ | e⟩ := r
    · rfl
    · simp at hprep

/-- An entry found can be deleted. -/
theorem delete_succeeds {c : Ctx} (hd : DirOk c.inode) (hav : BlocksAvailable c)
    {name : List UInt8} (hn : IsName name) {n p : Nat}
    (hf : (gas_find_entry c name).1 = some (n, p)) :
    (gas_delete_entry (gas_find_entry c name).2 n p).2 = none := by
  obtain ⟨t, ino, hpos, hs⟩ := gas_find_entry_some hd hn hf
  obtain ⟨P, m, hdim⟩ := hd.dims
  have hm := hdim.le
  have hle := slotPos_le t
  have hlt := (getElem?_slots_eq_some.mp hs).1
  have hn1 : n = t / 15 := congrArg Prod.fst hpos.symm
  have hp1 : p = (slotPos t).2 := congrArg Prod.snd hpos.symm
  have hprep := hav (gas_find_entry c name).2 n p (gas_find_entry_ticked c name).cleared (by
    rw [hdim.pages, hn1]
    rw [hdim.nslots] at hlt
    omega) (by show p < 4096; omega)
  unfold gas_delete_entry
  dsimp only
  generalize gas_dir_prepare_chunk (gas_find_entry c name).2 (PAGE_CACHE_SIZE * n + p)
    sizeof_gas_dir_entry = r at hprep
  obtain ⟨c2, _ | e⟩ := r
  · rfl
  · simp at hprep

/-- The first directories: just made, or the root of a new volume. -/
def MadeOrRoot (c : Ctx) : Prop := Made c ∨ RootBlock c

theorem MadeOrRoot.spec {c : Ctx} (h : MadeOrRoot c) : DirOk c.inode ∧ Uniq c.inode.slots := by
  rcases h with h | h
  · exact ⟨h.spec.1, h.spec.2.2⟩
  · refine ⟨h.spec.1, ?_⟩
    rw [h.spec.2]
    simp [Uniq, live, dot, dotdot]

/-- **A directory is a finite map.**  In every directory reached by successful calls, adding an
absent name binds it and deleting a record found frees it, neither is noticed by any other name or
overwrites a live entry, every record lies inside a page, and the size keeps its form.  If names
were added only when absent, the name of the deleted record is absent afterwards.  With blocks
available both calls succeed. -/
theorem reached_is_map {c : Ctx} (hr : Reached MadeOrRoot AnyName c)
    (hio : ∀ n, c.v.env.pgread n = true) :
    SizeOk c.inode ∧
      (∀ name ino c', IsName name → found c name = none → 0 < ino → ino < 4294967296 →
        gas_add_link c name ino = (c', none) → Adds name ino c c') ∧
      (∀ name n p c1 c', IsName name → gas_find_entry c name = (some (n, p), c1) →
        gas_delete_entry c1 n p = (c', none) → Deletes name (n, p) c c' ∧
          (Reached MadeOrRoot Absent c → found c' name = none)) ∧
      (BlocksAvailable c → ∀ name, IsName name →
        (found c name = none → ∀ ino, (gas_add_link c name ino).2 = none) ∧
        (∀ n p, (gas_find_entry c name).1 = some (n, p) →
          (gas_delete_entry (gas_find_entry c name).2 n p).2 = none)) := by
  have hd := hr.dirOk fun c hs => hs.spec.1
  refine ⟨hd.size, fun name ino c' hn habs hpos hlt h => ?_, fun name n p c1 c' hn hf h => ?_,
    fun hav name hn => ⟨fun habs ino => ?_, fun n p hf => delete_succeeds hd hav hn hf⟩⟩
  · exact adds_of_success hd hio hn ((found_eq_none hd hn hio).mp habs) hpos hlt h
  · obtain ⟨hdel, hself⟩ := deletes_of_success hd hio hn hf h
    exact ⟨hdel, fun hr' => hself (hr'.uniq fun c hs => hs.spec)⟩
  · exact add_link_succeeds hd hio hav hn ((found_eq_none hd hn hio).mp habs) ino

/-! ## 4. Runs on a volume with room

Directories that exist: with entries on several pages, and with a free slot in front of others. -/

/-- A directory reached, with its table and room for `k` more calls. -/
structure Built (S : Ctx → Prop) (G : Inode → List UInt8 → Prop) (k : Nat)
    (t : Table (List UInt8) Nat) (c : Ctx) : Prop where
  reached : Reached S G c
  room : Roomy c.v k
  ok : DirOk c.inode
  slots : c.inode.slots = t

theorem built_plain {S : Ctx → Prop} (hS : ∀ c, Made c → S c) (G : Inode → List UInt8 → Prop) :
    ∃ c, Built S G 246 [some (dot, 2), some (dotdot, 1)] c := by
  obtain ⟨c, hm, hroom⟩ := Roomy.make_empty (c := plain_dir) plain_roomy rfl 1
  have hmade : Made c := ⟨plain_dir, 1, rfl, fun _ _ _ => rfl, hm⟩
  have hspec := gas_make_empty_spec (c := plain_dir) rfl (fun _ _ _ _ => rfl) 1
  rw [hm] at hspec
  obtain ⟨-, ⟨e, he, -⟩ | ⟨-, -, -, hslots⟩⟩ := hspec
  · simp at he
  · exact ⟨c, .start c (hS c hmade), hroom, hmade.spec.1, hslots⟩

section
variable {S : Ctx → Prop} {G : Inode → List UInt8 → Prop} {k : Nat} {t : Table (List UInt8) Nat} {c : Ctx}
  {name : List UInt8}

theorem Built.add (h : Built S G (k + 1) t c) (hn : IsName name) (hg : G c.inode name) {ino : Nat}
    (hpos : 0 < ino) (hlt : ino < 4294967296)
    (habs : locate (t.take (hole t)) name = none) (h6 : hole t < 90) :
    ∃ c', gas_add_link c name ino = (c', none) ∧ Built S G k (put t (name, ino)) c' := by
  obtain ⟨c', hadd, hroom⟩ := h.room.add h.ok hn ino (by rw [h.slots]; exact habs)
    (by rw [h.slots]; show hole t / 15 < 6; omega)
  obtain ⟨-, hup⟩ := add_link_success h.ok hn hadd
  refine ⟨c', hadd, .add c c' name ino h.reached hn hg hadd, hroom, hup.ok, ?_⟩
  rw [entryOf, u32_of_lt hlt, if_neg (by omega)] at hup
  rw [← h.slots]
  exact eq_put_of_getElem? hup.getElem?

theorem Built.find (h : Built S G k t c) (hn : IsName name) :
    (gas_find_entry c name).1 = (locate t name).map slotPos := by
  rw [gas_find_entry_eq h.ok hn h.room.pgread, h.slots]

theorem Built.delete (h : Built S G (k + 1) t c) (hn : IsName name) {s : Nat}
    (hs : locate t name = some s) (h6 : s < 90) :
    ∃ c', gas_delete_entry (gas_find_entry c name).2 (slotPos s).1 (slotPos s).2 = (c', none) ∧
      Built S G k (t.set s none) c' := by
  have hf : gas_find_entry c name = (some (slotPos s), (gas_find_entry c name).2) :=
    Prod.ext (by rw [h.find hn, hs]; rfl) rfl
  have hroom : Roomy (gas_find_entry c name).2.v (k + 1) := by
    obtain ⟨tick, he⟩ := gas_find_entry_ticked c name
    rw [he]
    exact h.room.ticked tick
  obtain ⟨c', hdel, hroom'⟩ := hroom.delete (t := s) (by show s / 15 < 6; omega)
  obtain ⟨s', v, hpos, hs', hup⟩ := delete_found_spec h.ok hn hf hdel
  have hss : s' = s := by
    by_contra hne
    have := slotPos_apart hne
    simp only [slotPos, Prod.mk.injEq] at hpos this
    omega
  subst hss
  refine ⟨c', hdel, .delete c _ c' name _ _ h.reached hn hf hdel, hroom', hup.ok, ?_⟩
  rw [← h.slots]
  exact eq_set_of_getElem? (List.getElem?_eq_some_iff.mp hs').1 hup.getElem?

end

/-- The name of the `i`-th entry: one character, from `0` on. -/
def nth_name (i : Nat) : List UInt8 := [UInt8.ofNat (i + 48)]

/-- The table of the directory `dir` in `parent` with `n` entries of these names. -/
def names_table (dir parent : Nat) (ino : Nat → Nat) (n : Nat) : Table (List UInt8) Nat :=
  [some (dot, dir), some (dotdot, parent)] ++ (List.range n).map fun i => some (nth_name i, ino i)

/-- A directory with `n` entries of these names. -/
def nth_table (n : Nat) : Table (List UInt8) Nat :=
  [some (dot, 2), some (dotdot, 1)] ++ (List.range n).map fun i => some (nth_name i, i + 3)

theorem isName_nth {i : Nat} (h : i < 200) : IsName (nth_name i) := by
  refine ⟨?_, by simp [nth_name], by simp [nth_name]⟩
  simp only [nth_name, List.mem_singleton]
  intro he
  have := congrArg UInt8.toNat he
  rw [UInt8.toNat_ofNat'] at this
  have h0 : (0 : UInt8).toNat = 0 := rfl
  omega

theorem nth_name_ne {i j : Nat} (hi : i < 200) (hj : j < 200) (h : i ≠ j) : nth_name i ≠ nth_name j := by
  intro he
  have := congrArg UInt8.toNat (List.head_eq_of_cons_eq he)
  rw [UInt8.toNat_ofNat', UInt8.toNat_ofNat'] at this
  omega

theorem nth_name_ne_dot {i : Nat} (h : i < 200) : nth_name i ≠ dot := by
  intro he
  have := congrArg UInt8.toNat (List.head_eq_of_cons_eq he)
  rw [UInt8.toNat_ofNat'] at this
  have h0 : (46 : UInt8).toNat = 46 := rfl
  omega

section Table

variable (dir parent : Nat) (ino : Nat → Nat)

theorem names_table_full (n : Nat) : ∀ o ∈ names_table dir parent ino n, o ≠ none := by
  intro o ho
  simp only [names_table, List.mem_append, List.mem_cons, List.mem_map, List.not_mem_nil,
    or_false] at ho
  rcases ho with (rfl | rfl) | ⟨i, -, rfl⟩ <;> simp

@[simp] theorem length_names_table (n : Nat) : (names_table dir parent ino n).length = n + 2 := by
  simp [names_table]

theorem names_table_succ (n : Nat) : names_table dir parent ino (n + 1) =
    put (names_table dir parent ino n) (nth_name n, ino n) := by
  rw [put_of_full (names_table_full dir parent ino n), names_table, names_table, List.range_succ,
    List.map_append, List.append_assoc]
  rfl

theorem names_table_absent {n : Nat} (h : n < 200) :
    locate (names_table dir parent ino n) (nth_name n) = none := by
  rw [locate, List.findIdx?_eq_none_iff]
  intro o ho
  simp only [names_table, List.mem_append, List.mem_cons, List.mem_map, List.mem_range,
    List.not_mem_nil, or_false] at ho
  rcases ho with (rfl | rfl) | ⟨i, hi, rfl⟩
  · simp only [Option.any_some, decide_eq_false_iff_not]
    exact (nth_name_ne_dot h).symm
  · simp [dotdot, nth_name]
  · simp only [Option.any_some, decide_eq_false_iff_not]
    exact nth_name_ne (by omega) h (by omega)

end Table

theorem nth_table_full (n : Nat) : ∀ o ∈ nth_table n, o ≠ none := names_table_full 2 1 (· + 3) n

@[simp] theorem length_nth_table (n : Nat) : (nth_table n).length = n + 2 :=
  length_names_table 2 1 (· + 3) n

theorem nth_table_succ (n : Nat) : nth_table (n + 1) = put (nth_table n) (nth_name n, n + 3) :=
  names_table_succ 2 1 (· + 3) n

theorem nth_table_absent {n : Nat} (h : n < 200) : locate (nth_table n) (nth_name n) = none :=
  names_table_absent 2 1 (· + 3) h

section Nth

variable {S : Ctx → Prop} {G : Inode → List UInt8 → Prop} (hS : ∀ c, Made c → S c)
  (hG : ∀ inode name, Absent inode name → G inode name)

include hS hG

/-- There is such a directory. -/
theorem built_nth : ∀ n ≤ 88, ∃ c, Built S G (246 - n) (nth_table n) c
  | 0, _ => built_plain hS G
  | n + 1, h => by
    obtain ⟨c, hb⟩ := built_nth n (by omega)
    have hk : 246 - n = 246 - (n + 1) + 1 := by omega
    rw [hk] at hb
    have habs := nth_table_absent (n := n) (by omega)
    obtain ⟨c', -, hb'⟩ := hb.add (isName_nth (by omega))
      (hG _ _ (by rw [Absent, hb.slots]; exact habs))
      (show 0 < n + 3 by omega) (by omega) (locate_take_none habs _)
      (by rw [hole_of_full (nth_table_full n), length_nth_table]; omega)
    exact ⟨c', by rw [nth_table_succ]; exact hb'⟩

/-- And one with a free slot: 32 slots on three pages, from the eighth of which a name was
deleted. -/
theorem built_holed : ∃ c, Built S G 215 ((nth_table 30).set 7 none) c := by
  obtain ⟨c, hb⟩ := built_nth hS hG 30 (by omega)
  obtain ⟨c', -, hb'⟩ := Built.delete (k := 215) hb (isName_nth (i := 5) (by omega)) (s := 7)
    (by decide) (by omega)
  exact ⟨c', hb'⟩

end Nth

/-- In the directory with the free slot a new name is entered there, in front of the names of two
pages, and `nth_name 20` is deleted from the second page. -/
theorem holed_is_map : ∃ c c1 c2 : Ctx, Reached MadeOrRoot AnyName c ∧
    c.inode.slots = (nth_table 30).set 7 none ∧
    gas_add_link c (nth_name 40) 77 = (c1, none) ∧ Adds (nth_name 40) 77 c c1 ∧
    gas_delete_entry (gas_find_entry c (nth_name 20)).2 1 (slotPos 22).2 = (c2, none) ∧
    Deletes (nth_name 20) (slotPos 22) c c2 := by
  obtain ⟨c, hb⟩ := built_holed (S := MadeOrRoot) (G := AnyName) (fun _ h => Or.inl h)
    fun _ _ _ => trivial
  have hnew : IsName (nth_name 40) := isName_nth (by omega)
  have hold : IsName (nth_name 20) := isName_nth (by omega)
  have habs : found c (nth_name 40) = none := by
    rw [found_eq_none hb.ok hnew hb.room.pgread, Absent, hb.slots]
    decide
  have hfind : gas_find_entry c (nth_name 20) = (some (slotPos 22), (gas_find_entry c (nth_name 20)).2) :=
    Prod.ext (by rw [hb.find hold]; rfl) rfl
  obtain ⟨c1, hadd, -⟩ := hb.add hnew trivial (show 0 < 77 by omega) (by omega) (by decide) (by decide)
  obtain ⟨c2, hdel, -⟩ := hb.delete hold (s := 22) (by decide) (by omega)
  obtain ⟨-, hadds, hdels, -⟩ := reached_is_map hb.reached hb.room.pgread
  exact ⟨c, c1, c2, hb.reached, hb.slots, hadd,
    hadds _ _ _ hnew habs (by omega) (by omega) hadd, hdel, (hdels _ _ _ _ _ hold hfind hdel).1⟩

/-- **A name added twice is found after it was deleted.**  Deleting an entry in front of `b` leaves
a free slot there, where `gas_add_link` enters `b` again. -/
theorem deleted_name_still_found : ¬∀ (c c1 c' : Ctx) (name : List UInt8) (n p : Nat),
    Reached Made AnyName c → (∀ n, c.v.env.pgread n = true) → IsName name →
      gas_find_entry c name = (some (n, p), c1) → gas_delete_entry c1 n p = (c', none) →
      found c' name = none := by
  intro hclaim
  have ha : IsName [97] := ⟨by decide, by decide, by decide⟩
  have hb : IsName [98] := ⟨by decide, by decide, by decide⟩
  obtain ⟨c0, h0⟩ := built_plain (fun _ h => h) AnyName
  obtain ⟨c1, -, h1⟩ := h0.add ha trivial (show 0 < 5 by omega) (by omega) (by decide) (by decide)
  obtain ⟨c2, -, h2⟩ := h1.add hb trivial (show 0 < 6 by omega) (by omega) (by decide) (by decide)
  obtain ⟨c3, -, h3⟩ := h2.delete ha (s := 2) (by decide) (by omega)
  obtain ⟨c4, -, h4⟩ := h3.add hb trivial (show 0 < 7 by omega) (by omega) (by decide) (by decide)
  obtain ⟨c5, hdel, h5⟩ := h4.delete hb (s := 2) (by decide) (by omega)
  have hnone := hclaim c4 _ c5 [98] _ _ h4.reached h4.room.pgread hb
    (Prod.ext (h4.find hb) rfl) hdel
  have hloc : locate (List.set (put (List.set (put (put [some (dot, 2), some (dotdot, 1)]
      ([97], 5)) ([98], 6)) 2 none) ([98], 7)) 2 none) [98] = some 3 := by decide
  rw [found, h5.find hb, hloc] at hnone
  simp at hnone

end GasFs
