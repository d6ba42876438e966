/-
# Directory pages that cannot be read

`gas_empty_dir` and `gas_find_entry` skip a page they cannot read, and `gas_iterate` stops at it with
an error that `gas_inode_by_name` drops.  So a directory whose other entries lie on unreadable pages
counts as empty, and a name behind an unreadable page counts as absent.

What one scan sees is told in terms of the slots and of the answers to its page requests:
`gas_empty_dir_iff` and `gas_inode_by_name_eq_zero_iff`.  `pages_read_iff` says when nothing is taken
for empty that is not, and `unread_page` shows the directory that loses an entry.

The two are different faults.  `gas_empty_dir` answers for the pages it could not read, so a
directory goes with all that it holds.  `gas_lookup` answers at the first page it cannot read, so a
second name may be made beside the first, or the first is simply not found.

The conditions are stated with the numbers of the requests, because a kernel may refuse one read and
grant the next.
-/
import GasFs.Namei.Asked

namespace GasFs

open Bytes SlotTable

/-! ## 1. What a scan sees

Request `tick + n` is the one for page `n` of a scan that begins at `tick`.  A scan that skips what
it cannot read sees the slots on the other pages; the cursor of a listing sees the records in front
of the first page refused, and of those only the ones its running position comes to. -/

/-- The first unreadable page of a listing, or the number of its pages. -/
theorem exists_first_unread (p : Nat → Bool) :
    ∀ count, ∃ r ≤ count, (∀ i < r, p i = true) ∧ (r < count → p r = false)
  | 0 => ⟨0, le_rfl, fun i hi => absurd hi (Nat.not_lt_zero i), fun h => absurd h (Nat.lt_irrefl 0)⟩
  | count + 1 => by
    obtain ⟨r, hle, hread, hfail⟩ := exists_first_unread p count
    rcases Nat.lt_or_eq_of_le hle with hlt | rfl
    · exact ⟨r, by omega, hread, fun _ => hfail hlt⟩
    · cases hp : p r with
      | false => exact ⟨r, by omega, hread, fun _ => hp⟩
      | true =>
        refine ⟨r + 1, le_rfl, fun i hi => ?_, fun h => absurd h (Nat.lt_irrefl _)⟩
        rcases Nat.lt_succ_iff_lt_or_eq.mp hi with h | rfl
        · exact hread i h
        · exact hp

section Names

variable {kaddr : Mem} {p : Nat}

/-- The name `.` as bytes with their NUL. -/
theorem cstr_eq_dot (n : Nat) : cstr kaddr p (n + 3) = dot ↔ kaddr p = 46 ∧ kaddr (p + 1) = 0 := by
  rw [cstr, cstr]
  by_cases h0 : kaddr p = 0
  · simp [h0, dot]
  · by_cases h1 : kaddr (p + 1) = 0 <;> simp [h0, h1, dot]

/-- The name `..` as bytes with their NUL. -/
theorem cstr_eq_dotdot (n : Nat) : cstr kaddr p (n + 3) = dotdot ↔
    kaddr p = 46 ∧ kaddr (p + 1) = 46 ∧ kaddr (p + 2) = 0 := by
  rw [cstr, cstr, cstr, Nat.add_assoc p 1 1]
  by_cases h0 : kaddr p = 0
  · simp [h0, dotdot]
  · by_cases h1 : kaddr (p + 1) = 0
    · simp [h0, h1, dotdot]
    · by_cases h2 : kaddr (p + 2) = 0 <;> simp [h0, h1, h2, dotdot]

/-- An entry that keeps a directory from being empty: it is neither `.` nor `..`, or it is a `.`
that holds another number.  The entries `.` and `..` with the right numbers are those of an empty
directory. -/
def Occupies (inode : Inode) (e : List UInt8 × Nat) : Prop :=
  e.1 ≠ dot ∧ e.1 ≠ dotdot ∨ e.1 = dot ∧ e.2 ≠ inode.i_ino

/-- The test of `gas_empty_dir` reads the slot. -/
theorem not_empty_iff {inode : Inode} :
    not_empty inode kaddr p = true ↔ ∃ e, slotAt kaddr p = some e ∧ Occupies inode e := by
  have hdot : cstr kaddr p 256 = dot ↔ kaddr p = 46 ∧ kaddr (p + 1) = 0 := cstr_eq_dot 253
  have hdotdot : cstr kaddr p 256 = dotdot ↔ kaddr p = 46 ∧ kaddr (p + 1) = 46 ∧
      kaddr (p + 2) = 0 := cstr_eq_dotdot 253
  unfold slotAt not_empty Occupies
  by_cases hde : de_inode kaddr p = 0
  · simp [hde]
  · simp only [hde, if_false, Option.some.injEq, exists_eq_left', GAS_MAX_NAME_LEN, ne_eq, hdot,
      hdotdot]
    by_cases h0 : kaddr p = 46
    · by_cases h1 : kaddr (p + 1) = 0
      · simp [hde, h0, h1]
      · by_cases h2 : kaddr (p + 1) = 46 <;> simp [hde, h0, h1, h2]
    · simp [hde, h0]

end Names

/-- The test looks at the bytes of its record and at the inode, and at no other page. -/
theorem not_empty_local (inode : Inode) : Local (not_empty inode) := by
  intro kaddr kaddr' p h
  rw [Bool.eq_iff_iff, not_empty_iff, not_empty_iff, slotAt_congr h]

/-- A scan that finds nothing has asked for every page. -/
theorem find_record_none {test : Mem → Nat → Bool} : ∀ {count n : Nat} {c : Ctx},
    (find_record test count n c).1 = none →
      (find_record test count n c).2 = { c with v := { c.v with tick := c.v.tick + count } }
  | 0, _, _, _ => rfl
  | count + 1, n, c, h => by
    have hrec := @find_record_none test count (n + 1)
      { c with v := { c.v with tick := c.v.tick + 1 } }
    rw [Nat.add_assoc, Nat.add_comm 1 count] at hrec
    rw [find_record, gas_dir_get_page] at h ⊢
    cases hp : c.v.env.pgread c.v.tick with
    | false =>
      simp only [hp, Bool.false_eq_true, if_false] at h ⊢
      exact hrec h
    | true =>
      simp only [hp, if_true] at h ⊢
      cases hf : (records (gas_last_byte c.inode n)).find? (test (c.page_address c.v.tick n)) with
      | some q => simp [hf] at h
      | none =>
        simp only [hf] at h ⊢
        exact hrec h

/-- **`gas_empty_dir` sees the slots of the pages it can read.** So a directory none of whose pages
can be read is empty. -/
theorem gas_empty_dir_iff {c : Ctx} (hd : DirOk c.inode) :
    (gas_empty_dir c).1 = true ↔ ∀ (t : Nat) (e : List UInt8 × Nat),
      c.inode.slots[t]? = some (some e) → Occupies c.inode e →
        c.v.env.pgread (c.v.tick + t / 15) = false := by
  rw [gas_empty_dir]
  dsimp only
  rw [find_record_eq (not_empty_local c.inode) hd, Option.isNone_map, Option.isNone_iff_eq_none,
    List.find?_range_eq_none]
  simp only [slotPos, Bool.not_and, Bool.or_eq_true, Bool.not_eq_true']
  constructor
  · intro h t e hs ho
    obtain ⟨hlt, hslot⟩ := getElem?_slots_eq_some.mp hs
    refine (h t hlt).resolve_right fun hno => ?_
    rw [← Bool.not_eq_true, not_empty_iff] at hno
    exact hno ⟨e, hslot, ho⟩
  · intro h t hlt
    cases hp : c.v.env.pgread (c.v.tick + t / 15) with
    | false => exact Or.inl rfl
    | true =>
      refine Or.inr ?_
      rw [← Bool.not_eq_true, not_empty_iff]
      rintro ⟨e, hslot, ho⟩
      have := h t e (getElem?_slots_eq_some.mpr ⟨hlt, hslot⟩) ho
      rw [hp] at this
      exact absurd this (by simp)

/-- A directory that counts as empty has been asked for all its pages. -/
theorem gas_empty_dir_all {c : Ctx} (h : (gas_empty_dir c).1 = true) :
    (gas_empty_dir c).2 = { c with v := { c.v with tick := c.v.tick + gas_dir_pages c.inode } } :=
  find_record_none (Option.isNone_iff_eq_none.mp h)

/-- The records of a name that a lookup comes to: those on pages in front of the first one it cannot
read, as far as the cursor has not run past the end of the directory.  The running position counts
4160 bytes for a full page, sixteen steps of 260, and not 4096. -/
def ComesTo (c : Ctx) (name : List UInt8) : Prop :=
  ∃ n k ino : Nat, n < gas_dir_pages c.inode ∧ (∀ i ≤ n, c.v.env.pgread (c.v.tick + i) = true) ∧
    260 * k < 4096 ∧ 4160 * n + 260 * k < c.inode.i_size ∧
    slotAt (c.page_address (c.v.tick + n) n) (260 * k) = some (name, ino)

/-- **`gas_inode_by_name` finds nothing exactly when it comes to no record of the name.** The number
0 stands for "not found", and no record in use holds it. -/
theorem gas_inode_by_name_eq_zero_iff (c : Ctx) (name : List UInt8) :
    (gas_inode_by_name c name).1 = 0 ↔ ¬ComesTo c name := by
  obtain ⟨r, hle, hread, hfail⟩ := exists_first_unread (fun i => c.v.env.pgread (c.v.tick + i))
    (gas_dir_pages c.inode)
  have hmem : ComesTo c name ↔ ∃ ino, some (name, ino) ∈ Visits c r c.v.tick 0 := by
    simp only [mem_visits, Visited, List.mem_map, List.mem_range, lt_reach, Nat.zero_add]
    constructor
    · rintro ⟨n, k, ino, hn, hpages, hk, hpos, hs⟩
      have hnr : n < r := by
        by_contra hge
        have := hfail (by omega)
        rw [hpages r (by omega)] at this
        exact absurd this (by simp)
      exact ⟨ino, n, hnr, k, ⟨hk, hpos⟩, hs⟩
    · rintro ⟨ino, n, hn, k, ⟨hk, hpos⟩, hs⟩
      exact ⟨n, k, ino, by omega, fun i hi => hread i (by omega), hk, hpos, hs⟩
  rw [gas_inode_by_name_reads hle hread hfail, hmem]
  cases hl : lookup (Visits c r c.v.tick 0) name with
  | none =>
    rw [Option.getD_none, eq_self_iff_true, true_iff]
    rintro ⟨ino, hin⟩
    exact lookup_eq_none_iff.mp hl (List.mem_map.mpr ⟨(name, ino), mem_live.mpr hin, rfl⟩)
  | some ino =>
    have hin := mem_live.mp (mem_live_of_lookup hl)
    have hne : ino ≠ 0 := by
      simp only [mem_visits, Visited, List.mem_map] at hin
      obtain ⟨i, -, k, -, hs⟩ := hin
      exact slotAt_ino_ne_zero hs
    rw [Option.getD_some]
    exact iff_of_false hne fun h => h ⟨ino, hin⟩

/-! ## 2. The two operations

`gas_rmdir` asks for the pages of the directory to be removed and then for the record in its parent,
`gas_lookup` for the pages in order.  What each answers is an equivalence; `pages_read_iff` puts the
two together and says when neither answer is wrong. -/

/-- `gas_lookup` attaches nothing exactly when the name is short enough and no record is come to. -/
theorem gas_lookup_eq_null_iff (dev : DevCodec) (d : Fs Nat) (dir : Nat) (name : List UInt8) :
    (gas_lookup dev d dir name).1 = .null none ↔
      ¬GAS_MAX_NAME_LEN ≤ name.length ∧ ¬ComesTo (d.ctx dir) name := by
  rw [← gas_inode_by_name_eq_zero_iff]
  unfold gas_lookup
  by_cases hlen : GAS_MAX_NAME_LEN ≤ name.length
  · simp [hlen]
  · by_cases h0 : (gas_inode_by_name (d.ctx dir) name).1 = 0
    · simp [hlen, h0]
    · simp only [hlen, h0, if_false, not_false_eq_true, and_false, iff_false]
      generalize gas_iget dev (d.set dir (gas_inode_by_name (d.ctx dir) name).2).inodes
        (d.set dir (gas_inode_by_name (d.ctx dir) name).2).vol
        (gas_inode_by_name (d.ctx dir) name).1 = r
      obtain ⟨e | i, v⟩ := r
      · simp
      · simp

/-- The directory holds nothing but `.` and `..`.  This is what `gas_empty_dir` is to find out, and
what it does find out when it can read all pages. -/
def Deserted (inode : Inode) : Prop := ∀ (t : Nat) (e : List UInt8 × Nat),
  inode.slots[t]? = some (some e) → e.1 = dot ∨ e.1 = dotdot

/-- The record of a name can be read, and its chunk prepared.  It is stated with the functions of
the source; `unlinkable_iff` restates it by requests. -/
def Unlinkable (d : Fs Nat) (dir : Nat) (name : List UInt8) : Prop :=
  ∃ n p c, gas_find_entry (d.ctx dir) name = (some (n, p), c) ∧
    (gas_dir_prepare_chunk c (PAGE_CACHE_SIZE * n + p) sizeof_gas_dir_entry).2 = none

/-- `gas_unlink` fails only where the record cannot be found or freed. -/
theorem gas_unlink_eq_none_iff (d : Fs Nat) (dir : Nat) (name : List UInt8) (inode : Nat) :
    (gas_unlink d dir name inode).2 = none ↔ Unlinkable d dir name := by
  unfold gas_unlink Unlinkable
  rcases gas_find_entry (d.ctx dir) name with ⟨_ | ⟨n, p⟩, c⟩
  · simp
  · have hdel := gas_delete_entry_eq_none_iff c n p
    simp only [Prod.mk.injEq, Option.some.injEq]
    constructor
    · intro h
      refine ⟨n, p, c, ⟨⟨rfl, rfl⟩, rfl⟩, hdel.mp ?_⟩
      cases hr : gas_delete_entry c n p with
      | mk c1 o =>
        cases o with
        | none => rfl
        | some e => simp [hr] at h
    · rintro ⟨n', p', c', ⟨⟨rfl, rfl⟩, rfl⟩, hprep⟩
      have ho := hdel.mpr hprep
      cases hr : gas_delete_entry c n p with
      | mk c1 o =>
        rw [hr] at ho
        obtain rfl : o = none := ho
        rfl

/-- **When a name can be unlinked**: the page of its slot can be read, and its chunk is ready. -/
theorem unlinkable_iff {d : Fs Nat} {dir t ino : Nat} {name : List UInt8}
    (h : d.NameAt dir name t ino) : Unlinkable d dir name ↔
      d.vol.env.pgread (d.vol.tick + t / 15) = true ∧
        (d.ctx dir).ChunkReady (t / 15) [] d.vol.free.card (d.vol.tick + t / 15 + 1) := by
  have hfind := h.find
  unfold Unlinkable
  cases hread : d.vol.env.pgread (d.vol.tick + t / 15) with
  | false =>
    rw [hread, if_neg Bool.false_ne_true] at hfind
    refine iff_of_false ?_ fun hr => Bool.false_ne_true hr.1
    rintro ⟨n, p, c, hf, -⟩
    rw [hf] at hfind
    simp at hfind
  | true =>
    rw [hread, if_pos rfl] at hfind
    obtain ⟨c, hc⟩ : ∃ c, c = (d.atRequest (d.vol.tick + t / 15 + 1)).ctx dir := ⟨_, rfl⟩
    have hticked : Ticked (d.ctx dir) c := ⟨_, hc⟩
    obtain ⟨-, hready⟩ := @Fs.Sound.asked d dir (t / 15) h.sound h.tree c _ hticked.cleared
      (SameMap.refl _)
    have htick : c.v.tick = d.vol.tick + t / 15 + 1 := by rw [hc]; rfl
    rw [← hc] at hfind
    rw [htick] at hready
    rw [hfind, ← hready, and_iff_right rfl]
    constructor
    · rintro ⟨n, p, c', he, hprep⟩
      obtain ⟨hpos, rfl⟩ := Prod.mk.inj he
      obtain rfl : (slotPos t).1 = n := congrArg Prod.fst (Option.some.inj hpos)
      obtain rfl : (slotPos t).2 = p := congrArg Prod.snd (Option.some.inj hpos)
      rw [gas_dir_prepare_chunk_eq] at hprep
      exact hprep
    · intro he
      refine ⟨(slotPos t).1, (slotPos t).2, c, rfl, ?_⟩
      rw [gas_dir_prepare_chunk_eq]
      exact he

/-- The file system when every page of a directory has been asked for. -/
def Fs.scanned (d : Fs Nat) (k : Nat) : Fs Nat :=
  { d with vol := { d.vol with tick := d.vol.tick + gas_dir_pages (d.inode k) } }

/-- When `gas_rmdir` removes the directory. -/
theorem gas_rmdir_eq_none_iff (d : Fs Nat) (dir : Nat) (name : List UInt8) (k : Nat) :
    (gas_rmdir d dir name k).2 = none ↔
      (gas_empty_dir (d.ctx k)).1 = true ∧ Unlinkable (d.scanned k) dir name := by
  unfold gas_rmdir
  cases he : gas_empty_dir (d.ctx k) with
  | mk b c =>
    cases b with
    | false => simp
    | true =>
      have hc : c = { d.ctx k with v := (d.scanned k).vol } :=
        (congrArg Prod.snd he).symm.trans (gas_empty_dir_all (congrArg Prod.fst he))
      have hctx : (d.set k c).ctx dir = (d.scanned k).ctx dir := by
        rw [d.set_ticked k dir ⟨_, hc⟩, hc]
        rfl
      have hun := gas_unlink_eq_none_iff (d.set k c) dir name k
      rw [Unlinkable, hctx] at hun
      rw [Unlinkable, ← hun]
      dsimp only
      generalize gas_unlink (d.set k c) dir name k = r
      obtain ⟨d1, _ | e⟩ := r
      · simp
      · simp

/-- `gas_rmdir` removes the directory only if it is deserted.  The kernel's answers are part of the
state, so this is about one call. -/
def RemovesDeserted (d : Fs Nat) (dir : Nat) (name : List UInt8) (k : Nat) : Prop :=
  (gas_rmdir d dir name k).2 = none → Deserted (d.inode k)

/-- `gas_lookup` reports the name as absent only if no live entry has it. -/
def ReportsAbsent (dev : DevCodec) (d : Fs Nat) (dir : Nat) (name : List UInt8) : Prop :=
  (gas_lookup dev d dir name).1 = .null none →
    ∀ t ino : Nat, (d.inode dir).slots[t]? ≠ some (some (name, ino))

/-- **When unreadable pages do no harm.**  `gas_rmdir` removes none but deserted directories exactly
when the directory is one, or a page that `gas_empty_dir` can read holds an entry that occupies it, or
the name cannot be unlinked.  `gas_lookup` reports none but absent names exactly when the name is
absent or too long, or a record of it is come to in front of the first unreadable page.

A name that a slot of a sound file system holds cannot be unlinked exactly when the page of the slot
cannot be read, behind the requests for all pages of the directory to be removed, or the chunk of that
page is not ready. -/
theorem pages_read_iff (dev : DevCodec) (d : Fs Nat) (dir : Nat) (name : List UInt8) (k : Nat)
    (hd : DirOk (d.inode k)) :
    (RemovesDeserted d dir name k ↔
      Deserted (d.inode k) ∨
      (∃ (t : Nat) (e : List UInt8 × Nat), (d.inode k).slots[t]? = some (some e) ∧
        Occupies (d.inode k) e ∧ d.vol.env.pgread (d.vol.tick + t / 15) = true) ∨
      ¬Unlinkable (d.scanned k) dir name) ∧
    (ReportsAbsent dev d dir name ↔
      (∀ t ino : Nat, (d.inode dir).slots[t]? ≠ some (some (name, ino))) ∨
      GAS_MAX_NAME_LEN ≤ name.length ∨ ComesTo (d.ctx dir) name) ∧
    ∀ t ino : Nat, d.NameAt dir name t ino →
      (Unlinkable (d.scanned k) dir name ↔
        d.vol.env.pgread (d.vol.tick + gas_dir_pages (d.inode k) + t / 15) = true ∧
        (d.ctx dir).ChunkReady (t / 15) [] d.vol.free.card
          (d.vol.tick + gas_dir_pages (d.inode k) + t / 15 + 1)) := by
  refine ⟨?_, ?_, fun t ino hname => ?_⟩
  · have hempty := gas_empty_dir_iff (c := d.ctx k) hd
    rw [RemovesDeserted, gas_rmdir_eq_none_iff, hempty]
    constructor
    · intro h
      by_contra hno
      simp only [not_or, not_exists, not_and, Bool.not_eq_true, not_not] at hno
      exact hno.1 (h ⟨hno.2.1, hno.2.2⟩)
    · rintro (h | ⟨t, e, hs, ho, hp⟩ | h) ⟨hun, hlink⟩
      · exact h
      · have := hun t e hs ho
        rw [Fs.ctx_v, hp] at this
        exact absurd this (by simp)
      · exact absurd hlink h
  · rw [ReportsAbsent, gas_lookup_eq_null_iff]
    constructor
    · intro h
      by_contra hno
      simp only [not_or] at hno
      exact hno.1 (h hno.2)
    · rintro (h | h | h) ⟨hlen, hcome⟩
      · exact h
      · exact absurd h hlen
      · exact absurd h hcome
  · rw [← ready_later (d.ctx dir) (d.vol.tick + gas_dir_pages (d.inode k))]
    exact unlinkable_iff (hname.atRequest (d.vol.tick + gas_dir_pages (d.inode k)))

/-! ## 3. A directory that loses an entry

One page, one refused request: `rmdir` succeeds on the directory that holds `b`, and a lookup of `b`
says that there is none. -/

/-- The root directory, which holds the directory 2 under `a`; that one holds the inode 3 under
`b`.  The first page request from now on fails, if there are `bad` ones. -/
def two_dirs (bad : Nat) : Fs Nat where
  vol := { plain_vol with env := { plain_vol.env with pgread := fun t => decide (bad ≤ t) } }
  inodes k := if k = 1 then some (filled_dir 1 1 3 [([97], 2)] 4)
    else if k = 2 then some (filled_dir 2 1 2 [([98], 3)] 8) else none

/-- The directory that is to be removed is well formed. -/
theorem two_dirs_ok (bad : Nat) : DirOk ((two_dirs bad).inode 2) :=
  (filled_dir_ok (by decide) fun e he => by
    obtain rfl := List.mem_singleton.mp he
    exact ⟨by decide, by decide, by decide⟩).1

/-- With all pages read the directory stays, and the name is found. -/
theorem two_dirs_read : RemovesDeserted (two_dirs 0) 1 [97] 2 ∧
    ReportsAbsent linux_dev (two_dirs 0) 2 [98] := by
  obtain ⟨hrm, -⟩ := pages_read_iff linux_dev (two_dirs 0) 1 [97] 2 (two_dirs_ok 0)
  obtain ⟨-, hlook, -⟩ := pages_read_iff linux_dev (two_dirs 0) 2 [98] 2 (two_dirs_ok 0)
  refine ⟨hrm.mpr (Or.inr (Or.inl ⟨2, ([98], 3), by decide +kernel, Or.inl ⟨by decide, by decide⟩,
    rfl⟩)), hlook.mpr (Or.inr (Or.inr ⟨0, 2, 3, by decide, fun _ _ => rfl, by decide, by decide, ?_⟩))⟩
  decide +kernel

/-- **An unreadable page is taken for an empty one**: the directory is removed though it holds `b`, and
`b` is reported as absent. -/
theorem unread_page : (gas_rmdir (two_dirs 1) 1 [97] 2).2 = none ∧
    (gas_lookup linux_dev (two_dirs 1) 2 [98]).1 = .null none ∧
    ((two_dirs 1).inode 2).slots[2]? = some (some ([98], 3)) ∧
    ¬RemovesDeserted (two_dirs 1) 1 [97] 2 ∧ ¬ReportsAbsent linux_dev (two_dirs 1) 2 [98] := by
  have hrm : (gas_rmdir (two_dirs 1) 1 [97] 2).2 = none := by decide +kernel
  have hlook : (gas_lookup linux_dev (two_dirs 1) 2 [98]).1 = .null none := by decide +kernel
  have hslot : ((two_dirs 1).inode 2).slots[2]? = some (some ([98], 3)) := by decide +kernel
  refine ⟨hrm, hlook, hslot, fun h => ?_, fun h => h hlook 2 3 hslot⟩
  rcases h hrm 2 _ hslot with hdot | hdot
  · exact absurd hdot (by decide)
  · exact absurd hdot (by decide)

end GasFs
