/-
# Changing a directory

What the functions that write records do to the table of slots: `gas_add_link` puts the entry into
the first free slot (`gas_add_link_spec`), `gas_delete_entry` frees a slot
(`gas_delete_entry_spec`), and `gas_make_empty` makes the table of `.` and `..`
(`gas_make_empty_spec`).  Each of them either does that or fails and leaves the table as it is
(`Unchanged`), and none touches anything of the inode but its size, pages, pointers and times
(`DirStep`).

The loop of `gas_add_link` meets the end of the directory in three places: inside the last page,
at the unusable tail of a full last page, and on the blank page behind it.  `AddScan` says that it
always ends at the hole of the table, at an entry with the same name, or at a failed read.

A failed call leaves the table as it is, but not always the page: when `gas_add_link` comes to the
end of the directory it zeroes the `de_inode` of the record behind it before it has made sure of the
block.  That record is no slot, so `Cleared` is no change of the table.

`gas_dir_commit_chunk` is called for a directory that is not `dirsync` and does not fail here; the
page stays in the page cache until it is written back, which is the business of another module.
-/
import GasFs.Dir.Slots

namespace GasFs

open Bytes SlotTable

/-! ## 1. Writing a record

The name goes in by `strncpy` and a NUL in its last byte, the number behind it. -/

/-- What a record written for `name` and `ino` holds: nothing, if the number is `0`.  A number is
stored in four bytes, so one that is a multiple of 2^32 would free the slot. -/
def entryOf (name : List UInt8) (ino : Nat) : Option (List UInt8 × Nat) :=
  if u32 ino = 0 then none else some (name, u32 ino)

theorem write_entry_outside {kaddr : Mem} {p a : Nat} {name : List UInt8} {ino : Nat}
    (h : a < p ∨ p + 260 ≤ a) : write_entry kaddr p name ino a = kaddr a := by
  unfold write_entry
  rw [putLe32_outside (by show a < p + 256 ∨ p + 256 + 4 ≤ a; omega),
    Function.update_of_ne (by show a ≠ p + 255; omega), strncpy_outside]
  show ¬(p ≤ a ∧ a < p + 255)
  omega

/-- **A record written is read back.** The byte in front of the number stays NUL, which `IsName` and
the closing NUL of `cstr` rely on. -/
theorem write_entry_spec (kaddr : Mem) (p : Nat) {name : List UInt8} (hn : IsName name) (ino : Nat) :
    slotAt (write_entry kaddr p name ino) p = entryOf name ino ∧
      write_entry kaddr p name ino (p + 255) = 0 := by
  have hle := hn.le
  have hde : de_inode (write_entry kaddr p name ino) p = u32 ino := le32_putLe32 _ _ _
  have hbytes : ∀ i < 256, write_entry kaddr p name ino (p + i) = name.getD i 0 := by
    intro i hi
    unfold write_entry
    rw [putLe32_outside (Or.inl (by show p + i < p + 256; omega))]
    by_cases h255 : i = 255
    · subst h255
      show Function.update _ (p + 255) 0 (p + 255) = _
      rw [Function.update_self]
      simp [List.getElem?_eq_none hle]
    · rw [Function.update_of_ne (by show p + i ≠ p + 255; omega), strncpy,
        if_pos ⟨by omega, by show p + i < p + 255; omega⟩, cstr_ofList hn.nonul,
        List.take_of_length_le (show name.length ≤ GAS_MAX_NAME_LEN - 1 from hle)]
      congr 1
      omega
  have hstr : cstr (write_entry kaddr p name ino) p 256 = name :=
    cstr_of_bytes hn.nonul hbytes (by omega)
  refine ⟨?_, ?_⟩
  · simp only [slotAt, hde, hstr, entryOf]
  · rw [hbytes 255 (by omega)]
    simp [List.getElem?_eq_none hle]

/-- A directory in which one record of one page was written: the table differs in its slot.  What
lies outside the record is as before, the unusable tail of the page included. -/
structure Wrote (t : Nat) (o : Option (List UInt8 × Nat)) (i i' : Inode) : Prop where
  slot : i'.slot t = o
  closed : i'.pages (slotPos t).1 ((slotPos t).2 + 255) = 0
  others : ∀ n a, (n ≠ (slotPos t).1 ∨ a < (slotPos t).2 ∨ (slotPos t).2 + 260 ≤ a) →
    i'.pages n a = i.pages n a

theorem Wrote.slot_of_ne {t s : Nat} {o : Option (List UInt8 × Nat)} {i i' : Inode}
    (h : Wrote t o i i') (hne : s ≠ t) : i'.slot s = i.slot s := by
  refine slotAt_congr fun a h1 h2 => h.others _ a ?_
  have := slotPos_apart hne
  omega

/-- Writing a record below the end, or the one at the end.  These are the two places where `got_it`
writes, and the size grows only in the second. -/
theorem Wrote.dirOk {t : Nat} {o : Option (List UInt8 × Nat)} {i i' : Inode} (hd : DirOk i)
    (h : Wrote t o i i') (ht : t ≤ i.nslots)
    (hs : i'.i_size = max i.i_size (4096 * (slotPos t).1 + (slotPos t).2 + 260)) :
    DirOk i' ∧ i'.nslots = max i.nslots (t + 1) := by
  obtain ⟨P, m, hdim⟩ := hd.dims
  have hm := hdim.le
  have hm1 := hdim.pos
  have hsize := hdim.size
  have hns := hdim.nslots
  -- where the slot lies, and the new dimensions
  obtain ⟨P', m', hm1', hm', hsize', hns'⟩ : ∃ P' m', 1 ≤ m' ∧ m' ≤ 15 ∧
      i'.i_size = 4096 * P' + 260 * m' ∧ max i.nslots (t + 1) = 15 * P' + m' := by
    rcases Nat.lt_or_ge t i.nslots with hlt | hge
    · refine ⟨P, m, hm1, hm, ?_, by omega⟩
      rw [hs, hsize]
      simp only [slotPos]
      omega
    · refine ⟨t / 15, t % 15 + 1, by omega, by omega, ?_, by omega⟩
      rw [hs, hsize]
      simp only [slotPos]
      omega
  have hnslots : i'.nslots = 15 * P' + m' := by
    rw [Inode.nslots, hsize']
    show 15 * ((4096 * P' + 260 * m') / 4096) + (4096 * P' + 260 * m') % 4096 / 260 = _
    omega
  refine ⟨⟨⟨P', m', hm1', hm', hsize'⟩, fun s hlt => ?_, fun n a hle ha => ?_⟩, by omega⟩
  · by_cases hst : s = t
    · rw [hst]
      exact h.closed
    · have hsl : s < i.nslots := by omega
      rw [h.others _ _ ?_]
      · exact hd.closed s hsl
      · have := slotPos_apart hst
        omega
  · have hle' : 4096 * (slotPos t).1 + (slotPos t).2 + 260 ≤ 4096 * n := by omega
    rw [h.others n a (Or.inl (by omega))]
    exact hd.past n a (by omega) ha

/-- The table after writing a record: the new entry in its slot, all others as they were.  A slot
behind the end comes into the table only when it is the one written. -/
theorem Wrote.getElem? {t : Nat} {o : Option (List UInt8 × Nat)} {i i' : Inode}
    (h : Wrote t o i i') (ht : t ≤ i.nslots) (hn : i'.nslots = max i.nslots (t + 1)) (s : Nat) :
    i'.slots[s]? = if s = t then some o else i.slots[s]? := by
  rw [getElem?_slots, getElem?_slots, hn]
  by_cases hst : s = t
  · subst hst
    rw [if_pos (by omega), if_pos rfl, h.slot]
  · rw [if_neg hst, h.slot_of_ne hst]
    by_cases hlt : s < i.nslots
    · rw [if_pos (by omega), if_pos hlt]
    · rw [if_neg (by omega), if_neg hlt]

theorem Wrote.blank {t : Nat} {o : Option (List UInt8 × Nat)} {i i' : Inode}
    (h : Wrote t o i i') (hb : Blank i) : Blank i' := by
  intro n a h1 h2
  have := slotPos_le t
  rw [h.others n a (by omega)]
  exact hb n a h1 h2

/-! ## 2. The operations

What a change of one slot is, and the two functions that make one. -/

/-- What the directory functions may change of an inode.  Type, owner, number and link count are not
among it, so an entry is added or deleted without a look at what the directory is for others. -/
def DirStep (i i' : Inode) : Prop :=
  ∃ size blkaddr pages mtime ctime,
    i' = { i with i_size := size, blkaddr := blkaddr, pages := pages, i_mtime := mtime,
                  i_ctime := ctime }

theorem DirStep.trans {i i' i'' : Inode} (h : DirStep i i') (h' : DirStep i' i'') :
    DirStep i i'' := by
  obtain ⟨_, _, _, _, _, rfl⟩ := h
  obtain ⟨size, blkaddr, pages, mtime, ctime, rfl⟩ := h'
  exact ⟨size, blkaddr, pages, mtime, ctime, rfl⟩

/-- The size and the pages are the same, so the directory is. -/
def SameDir (i i' : Inode) : Prop := i'.i_size = i.i_size ∧ i'.pages = i.pages

theorem SameDir.nslots {i i' : Inode} (h : SameDir i i') : i'.nslots = i.nslots := by
  rw [Inode.nslots, Inode.nslots, h.1]

theorem SameDir.slot {i i' : Inode} (h : SameDir i i') (t : Nat) : i'.slot t = i.slot t := by
  rw [Inode.slot, Inode.slot, h.2]

/-- The table is the same and still well formed.  The pages may differ behind the end, where no slot
is. -/
structure Unchanged (i i' : Inode) : Prop where
  ok : DirOk i'
  slots : i'.slots = i.slots
  blank : Blank i → Blank i'

theorem SameDir.unchanged {i i' : Inode} (h : SameDir i i') (hd : DirOk i) : Unchanged i i' where
  ok := ⟨by rw [h.1]; exact hd.size, fun t ht => by rw [h.nslots] at ht; rw [h.2]; exact hd.closed t ht,
    fun n a hle ha => by rw [h.1] at hle; rw [h.2]; exact hd.past n a hle ha⟩
  slots := by
    rw [Inode.slots, Inode.slots, h.nslots]
    exact List.map_congr_left fun t _ => h.slot t
  blank hb n a h1 h2 := by rw [h.2]; exact hb n a h1 h2

/-- One record was written: at the first free slot, or over an entry found.  This is all that later
modules know of a write: the bytes of the page do not occur in it. -/
structure Updated (t : Nat) (o : Option (List UInt8 × Nat)) (i i' : Inode) : Prop where
  ok : DirOk i'
  getElem? : ∀ s : Nat, i'.slots[s]? = if s = t then some o else i.slots[s]?
  blank : Blank i → Blank i'

theorem Wrote.updated {t : Nat} {o : Option (List UInt8 × Nat)} {i i' : Inode} (h : Wrote t o i i')
    (hd : DirOk i) (ht : t ≤ i.nslots)
    (hs : i'.i_size = max i.i_size (4096 * (slotPos t).1 + (slotPos t).2 + 260)) :
    Updated t o i i' :=
  ⟨(h.dirOk hd ht hs).1, h.getElem? ht (h.dirOk hd ht hs).2, h.blank⟩

theorem prepare_chunk_mapStep (c : Ctx) (pos len : Nat) :
    MapStep c (gas_dir_prepare_chunk c pos len).1 := block_write_begin_mapStep c pos len true

theorem MapStep.sameDir {c c' : Ctx} (h : MapStep c c') : SameDir c.inode c'.inode := by
  obtain ⟨-, _, _, he⟩ := h
  rw [he]
  exact ⟨rfl, rfl⟩

theorem MapStep.dirStep {c c' : Ctx} (h : MapStep c c') : DirStep c.inode c'.inode := by
  obtain ⟨-, blkaddr, ctime, he⟩ := h
  exact ⟨_, blkaddr, _, _, ctime, he⟩

/-- Committing and touching a written page.  The size grows if the record ends behind it, and
nothing is asked of the kernel. -/
theorem commit_spec (c : Ctx) (n : Nat) (f : Mem → Mem) (pos len : Nat) :
    let c' := touch (gas_dir_commit_chunk none { c with inode := c.inode.setPage n f } pos len).1
    c'.v = c.v ∧ DirStep c.inode c'.inode ∧ c'.inode.i_size = max c.inode.i_size (pos + len) ∧
      c'.inode.pages = Function.update c.inode.pages n (f (c.inode.pages n)) := by
  rw [gas_dir_commit_chunk_eq]
  exact ⟨rfl, ⟨_, _, _, _, _, rfl⟩, rfl, rfl⟩

/-- `got_it` writes the record, or fails and leaves the directory as it is: it fails only while the
chunk is prepared, before the page is touched. -/
theorem got_it_spec {c : Ctx} {t : Nat} {name : List UInt8} (hn : IsName name) (ino : Nat) :
    let r := got_it c (slotPos t).1 (slotPos t).2 name ino
    DirStep c.inode r.1.inode ∧
      ((∃ e, r.2 = some e ∧ SameDir c.inode r.1.inode) ∨
        (r.2 = none ∧ Wrote t (entryOf name ino) c.inode r.1.inode ∧
          r.1.inode.i_size = max c.inode.i_size (4096 * (slotPos t).1 + (slotPos t).2 + 260))) := by
  have hmap := prepare_chunk_mapStep c (PAGE_CACHE_SIZE * (slotPos t).1 + (slotPos t).2)
    sizeof_gas_dir_entry
  unfold got_it
  dsimp only
  generalize gas_dir_prepare_chunk c (PAGE_CACHE_SIZE * (slotPos t).1 + (slotPos t).2)
    sizeof_gas_dir_entry = r at hmap
  obtain ⟨c1, _ | e⟩ := r
  · obtain ⟨-, hstep, hsize, hpages⟩ := commit_spec c1 (slotPos t).1
      (write_entry · (slotPos t).2 name ino)
      (PAGE_CACHE_SIZE * (slotPos t).1 + (slotPos t).2) sizeof_gas_dir_entry
    have hsame := hmap.sameDir
    dsimp only at hmap ⊢
    refine ⟨hmap.dirStep.trans hstep, Or.inr ⟨rfl, ⟨?_, ?_, ?_⟩, ?_⟩⟩
    · rw [Inode.slot, hpages, Function.update_self]
      exact (write_entry_spec _ _ hn ino).1
    · rw [hpages, Function.update_self]
      exact (write_entry_spec _ _ hn ino).2
    · intro n a h
      rw [hpages]
      by_cases hn' : n = (slotPos t).1
      · subst hn'
        rw [Function.update_self, write_entry_outside (by omega), hsame.2]
      · rw [Function.update_of_ne hn', hsame.2]
    · rw [hsize, hsame.1]
  · dsimp only at hmap ⊢
    exact ⟨hmap.dirStep, Or.inl ⟨e, rfl, hmap.sameDir⟩⟩

/-- `got_it` does to the volume what `gas_get_block` does. -/
theorem got_it_blockStep (c : Ctx) (n p : Nat) (name : List UInt8) (ino : Nat) :
    BlockStep c.v (got_it c n p name ino).1.v := by
  have hmap := prepare_chunk_mapStep c (PAGE_CACHE_SIZE * n + p) sizeof_gas_dir_entry
  unfold got_it
  dsimp only
  generalize gas_dir_prepare_chunk c (PAGE_CACHE_SIZE * n + p) sizeof_gas_dir_entry = r at hmap
  obtain ⟨c1, _ | e⟩ := r
  · dsimp only at hmap ⊢
    rw [(commit_spec c1 n _ _ _).1]
    exact hmap.1
  · exact hmap.1

theorem gas_delete_entry_blockStep (c : Ctx) (n p : Nat) :
    BlockStep c.v (gas_delete_entry c n p).1.v := by
  have hmap := prepare_chunk_mapStep c (PAGE_CACHE_SIZE * n + p) sizeof_gas_dir_entry
  unfold gas_delete_entry
  dsimp only
  generalize gas_dir_prepare_chunk c (PAGE_CACHE_SIZE * n + p) sizeof_gas_dir_entry = r at hmap
  obtain ⟨c1, _ | e⟩ := r
  · dsimp only at hmap ⊢
    rw [(commit_spec c1 n _ _ _).1]
    exact hmap.1
  · exact hmap.1

/-- **`gas_delete_entry` frees the slot**, or fails and leaves the directory as it is.  The size
stays, so the slot is a hole for the next `gas_add_link`. -/
theorem gas_delete_entry_spec {c : Ctx} (hd : DirOk c.inode) {t : Nat} (ht : t < c.inode.nslots) :
    let r := gas_delete_entry c (slotPos t).1 (slotPos t).2
    DirStep c.inode r.1.inode ∧
      ((∃ e, r.2 = some e ∧ Unchanged c.inode r.1.inode) ∨
        (r.2 = none ∧ Updated t none c.inode r.1.inode)) := by
  have hmap := prepare_chunk_mapStep c (PAGE_CACHE_SIZE * (slotPos t).1 + (slotPos t).2)
    sizeof_gas_dir_entry
  unfold gas_delete_entry
  dsimp only
  generalize gas_dir_prepare_chunk c (PAGE_CACHE_SIZE * (slotPos t).1 + (slotPos t).2)
    sizeof_gas_dir_entry = r at hmap
  obtain ⟨c1, _ | e⟩ := r
  · obtain ⟨-, hstep, hsize, hpages⟩ := commit_spec c1 (slotPos t).1
      (putLe32 · ((slotPos t).2 + GAS_MAX_NAME_LEN) 0)
      (PAGE_CACHE_SIZE * (slotPos t).1 + (slotPos t).2) sizeof_gas_dir_entry
    have hsame := hmap.sameDir
    dsimp only at hmap ⊢
    refine ⟨hmap.dirStep.trans hstep, Or.inr ⟨rfl, Wrote.updated ⟨?_, ?_, ?_⟩ hd ht.le ?_⟩⟩
    · rw [Inode.slot, hpages, Function.update_self, slotAt_eq_none]
      exact le32_putLe32 _ _ 0
    · rw [hpages, Function.update_self, putLe32_outside, hsame.2]
      · exact hd.closed t ht
      · left
        show (slotPos t).2 + 255 < (slotPos t).2 + 256
        omega
    · intro n a h
      rw [hpages]
      by_cases hn' : n = (slotPos t).1
      · subst hn'
        rw [Function.update_self, putLe32_outside, hsame.2]
        show a < (slotPos t).2 + 256 ∨ (slotPos t).2 + 256 + 4 ≤ a
        omega
      · rw [Function.update_of_ne hn', hsame.2]
    · rw [hsize, hsame.1]
  · dsimp only at hmap ⊢
    refine ⟨hmap.dirStep.trans ⟨_, _, _, _, _, rfl⟩, Or.inl ⟨e, rfl, ?_⟩⟩
    have hsame : SameDir c.inode (touch c1).inode := hmap.sameDir
    exact hsame.unchanged hd

/-- `gas_delete_entry` fails when the chunk cannot be prepared.  The record is cleared behind that,
so a call that fails has not cleared it. -/
theorem gas_delete_entry_eq_none_iff (c : Ctx) (n p : Nat) : (gas_delete_entry c n p).2 = none ↔
    (gas_dir_prepare_chunk c (PAGE_CACHE_SIZE * n + p) sizeof_gas_dir_entry).2 = none := by
  unfold gas_delete_entry
  dsimp only
  generalize gas_dir_prepare_chunk c (PAGE_CACHE_SIZE * n + p) sizeof_gas_dir_entry = r
  obtain ⟨c1, _ | e⟩ := r
  · simp
  · simp

/-! ## 3. Adding an entry

The loop of `gas_add_link` and its three ends. -/

/-- The slots in front of `t` are in use, for other names.  The loop of `gas_add_link` stops at the
first slot that is free or has the name. -/
def Passed (inode : Inode) (name : List UInt8) (t : Nat) : Prop :=
  ∀ s < t, ∃ e, inode.slots[s]? = some (some e) ∧ e.1 ≠ name

/-- The page of the slot behind the end, its `de_inode` perhaps cleared.  It is `de->de_inode = 0`
at the end of the directory, done before the chunk is asked for. -/
structure Cleared (c c' : Ctx) : Prop where
  vol : ∃ tick, c'.v = { c.v with tick := tick }
  inode : ∃ pages, c'.inode = { c.inode with pages := pages }
  pages : ∀ n a, c'.inode.pages n a = c.inode.pages n a ∨
    (n = (slotPos c.inode.nslots).1 ∧ (slotPos c.inode.nslots).2 + 256 ≤ a ∧
      a < (slotPos c.inode.nslots).2 + 260 ∧ c'.inode.pages n a = 0)

theorem Ticked.cleared {c c' : Ctx} (h : Ticked c c') : Cleared c c' := by
  obtain ⟨t, rfl⟩ := h
  exact ⟨⟨t, rfl⟩, ⟨_, rfl⟩, fun _ _ => Or.inl rfl⟩

theorem Cleared.size {c c' : Ctx} (h : Cleared c c') : c'.inode.i_size = c.inode.i_size := by
  obtain ⟨_, he⟩ := h.inode
  rw [he]

theorem Cleared.dirStep {c c' : Ctx} (h : Cleared c c') : DirStep c.inode c'.inode := by
  obtain ⟨pages, he⟩ := h.inode
  exact ⟨_, _, pages, _, _, he⟩

/-- Clearing the record behind the end is no change.  The slot behind the end becomes part of the
table only with the next successful write, and that writes the whole record. -/
theorem Cleared.unchanged {c c' : Ctx} (h : Cleared c c') (hd : DirOk c.inode) :
    Unchanged c.inode c'.inode := by
  have hns : c'.inode.nslots = c.inode.nslots := by rw [Inode.nslots, Inode.nslots, h.size]
  have hbytes : ∀ t < c.inode.nslots, ∀ a, (slotPos t).2 ≤ a → a < (slotPos t).2 + 260 →
      c'.inode.pages (slotPos t).1 a = c.inode.pages (slotPos t).1 a := by
    intro t ht a h1 h2
    have hap := slotPos_apart (s := t) (t := c.inode.nslots) (by omega)
    rcases h.pages (slotPos t).1 a with he | ⟨hn, h3, h4, -⟩
    · exact he
    · omega
  refine ⟨⟨by rw [h.size]; exact hd.size, fun t ht => ?_, fun n a hle ha => ?_⟩, ?_, ?_⟩
  · rw [hns] at ht
    rw [hbytes t ht _ (by omega) (by omega)]
    exact hd.closed t ht
  · rw [h.size] at hle
    rcases h.pages n a with he | ⟨-, -, -, hz⟩
    · rw [he]
      exact hd.past n a hle ha
    · exact hz
  · rw [Inode.slots, Inode.slots, hns]
    exact List.map_congr_left fun t ht => slotAt_congr (hbytes t (List.mem_range.mp ht))
  · intro hb n a h1 h2
    rcases h.pages n a with he | ⟨-, -, -, hz⟩
    · rw [he]
      exact hb n a h1 h2
    · exact hz

/-- The pages in front of the page `n` have been asked for, one by one. -/
def PagesRead (c : Ctx) (n : Nat) : Prop := ∀ i < n, c.v.env.pgread (c.v.tick + i) = true

/-- Where the loop of `gas_add_link` ends: at a page that cannot be read, at an entry with the
same name, or at the first free slot.  The pages up to there are asked for one by one, so the number
of the request that decides is told by the slot. -/
inductive AddScan (c : Ctx) (name : List UInt8) (ino : Nat) : Ctx × Option Errno → Prop
  | unread (c1 : Ctx) (ht : Ticked c c1) (n : Nat) (hp : Passed c.inode name (15 * n))
      (hr : c.v.env.pgread (c.v.tick + n) = false) :
      AddScan c name ino (c1, some Errno.EIO)
  | present (c1 : Ctx) (ht : Ticked c c1) (t v : Nat)
      (hs : c.inode.slots[t]? = some (some (name, v))) (hp : Passed c.inode name t) :
      AddScan c name ino (c1, some .EEXIST)
  | free (c1 : Ctx) (hc : Cleared c c1) (t : Nat)
      (ht : c.inode.slots[t]? = some none ∨ t = c.inode.nslots) (hp : Passed c.inode name t)
      (hread : PagesRead c (t / 15 + 1)) (htick : c1.v.tick = c.v.tick + t / 15 + 1) :
      AddScan c name ino (got_it c1 (slotPos t).1 (slotPos t).2 name ino)

section Page

variable {inode : Inode} {P m n j : Nat} {name : List UInt8} {kaddr : Mem}

/-- The end of the directory as a record number. -/
theorem dir_end_iff (hdim : Dims inode P m) (hn : n ≤ P) (hj : j < 15) :
    260 * j = gas_last_byte inode n ↔ 15 * n + j = inode.nslots := by
  have hm := hdim.le
  rw [hdim.last n, hdim.nslots]
  split <;> omega

/-- A slot is read from the page as it is in memory, and its last name byte is NUL. -/
theorem slot_on_page (hd : DirOk inode) (hk : ∀ a < 4096, kaddr a = inode.pages n a) (hj : j < 15)
    (hlt : 15 * n + j < inode.nslots) :
    inode.slots[15 * n + j]? = some (slotAt kaddr (260 * j)) ∧ kaddr (260 * j + 255) = 0 := by
  have hslot : inode.slot (15 * n + j) = slotAt kaddr (260 * j) := by
    rw [Inode.slot, slotPos_add hj]
    exact slotAt_congr fun a _ h2 => (hk a (by omega)).symm
  have hz := hd.closed _ hlt
  rw [slotPos_add hj] at hz
  exact ⟨getElem?_slots_eq_some.mpr ⟨hlt, hslot⟩, (hk _ (by omega)).trans hz⟩

/-- A slot at which the loop does not stop is in use for another name. -/
theorem add_stops_passes (hd : DirOk inode) (hn : IsName name)
    (hk : ∀ a < 4096, kaddr a = inode.pages n a) (hj : j < 15) (hlt : 15 * n + j < inode.nslots)
    (hs : add_stops inode n name kaddr (260 * j) = false) :
    ∃ e, inode.slots[15 * n + j]? = some (some e) ∧ e.1 ≠ name := by
  obtain ⟨hslot, hz⟩ := slot_on_page hd hk hj hlt
  simp only [add_stops, Bool.or_eq_false_iff, beq_eq_false_iff_ne, ne_eq] at hs
  refine ⟨(cstr kaddr (260 * j) 256, de_inode kaddr (260 * j)), ?_, ?_⟩
  · rw [hslot]
    exact congrArg some (if_neg hs.1.2)
  · exact fun he => hs.2 ((strncmp_closed hn hz).mpr he)

/-- A page on which the loop has passed `j` records. -/
theorem Passed.page (hp : Passed inode name (15 * n)) (hd : DirOk inode) (hn : IsName name)
    (hk : ∀ a < 4096, kaddr a = inode.pages n a) (hj : j ≤ 15) (hle : 15 * n + j ≤ inode.nslots)
    (hs : ∀ i < j, add_stops inode n name kaddr (260 * i) = false) : Passed inode name (15 * n + j) := by
  intro s hsj
  by_cases hlt : s < 15 * n
  · exact hp s hlt
  · have h := add_stops_passes (j := s - 15 * n) hd hn hk (by omega) (by omega) (hs _ (by omega))
    rwa [show 15 * n + (s - 15 * n) = s by omega] at h

/-- The loop stops at the end of the directory, so it does not go beyond it. -/
theorem le_nslots_of_passed (hdim : Dims inode P m) (hnP : n ≤ P) (hj : j ≤ 15)
    (hs : ∀ i < j, add_stops inode n name kaddr (260 * i) = false) : 15 * n + j ≤ inode.nslots := by
  by_contra hgt
  have hpos := hdim.pos
  have hns := hdim.nslots
  have hend := (dir_end_iff (j := inode.nslots - 15 * n) hdim hnP (by omega)).mpr (by omega)
  have hstop := hs (inode.nslots - 15 * n) (by omega)
  simp [add_stops, hend] at hstop

/-- The record at which the loop stops: it is behind the last slot, or its slot is free or has the
name. -/
theorem add_stops_at (hd : DirOk inode) (hdim : Dims inode P m) (hn : IsName name) (hnP : n ≤ P)
    (hk : ∀ a < 4096, kaddr a = inode.pages n a) (hj : j < 15) (hle : 15 * n + j ≤ inode.nslots)
    (hs : add_stops inode n name kaddr (260 * j) = true) :
    if 260 * j = gas_last_byte inode n then 15 * n + j = inode.nslots
      else if de_inode kaddr (260 * j) = 0 then inode.slots[15 * n + j]? = some none
      else ∃ v, inode.slots[15 * n + j]? = some (some (name, v)) := by
  by_cases hlb : 260 * j = gas_last_byte inode n
  · rw [if_pos hlb]
    exact (dir_end_iff hdim hnP hj).mp hlb
  · rw [if_neg hlb]
    have hlt : 15 * n + j < inode.nslots :=
      lt_of_le_of_ne hle fun he => hlb ((dir_end_iff hdim hnP hj).mpr he)
    obtain ⟨hslot, hz⟩ := slot_on_page hd hk hj hlt
    by_cases hde : de_inode kaddr (260 * j) = 0
    · rw [if_pos hde, hslot, slotAt_eq_none.mpr hde]
    · rw [if_neg hde]
      have hname : cstr kaddr (260 * j) 256 = name := by
        rw [← strncmp_closed hn hz]
        simpa [add_stops, hlb, hde] using hs
      refine ⟨de_inode kaddr (260 * j), ?_⟩
      rw [hslot, slotAt, if_neg hde, hname]

/-- The inner loop: the first slot of the page at which it stops, if it stops.  The cases are those
of `AddScan`, seen on one page; the records of the page are counted from `15 * n` on. -/
theorem add_stops_find (hd : DirOk inode) (hdim : Dims inode P m) (hn : IsName name) (hn1 : n ≤ P)
    (hk : ∀ a < 4096, kaddr a = inode.pages n a) (hp : Passed inode name (15 * n)) :
    match (records PAGE_CACHE_SIZE).find? (add_stops inode n name kaddr) with
    | none => Passed inode name (15 * (n + 1)) ∧ (n = P → m = 15)
    | some p => ∃ t, slotPos t = (n, p) ∧ Passed inode name t ∧
        (if p = gas_last_byte inode n then t = inode.nslots
          else if de_inode kaddr p = 0 then inode.slots[t]? = some none
          else ∃ v, inode.slots[t]? = some (some (name, v))) := by
  have hrec : records PAGE_CACHE_SIZE = (List.range 15).map (260 * ·) := rfl
  rw [hrec, List.find?_map]
  cases hf : (List.range 15).find? (add_stops inode n name kaddr ∘ (260 * ·)) with
  | none =>
    rw [List.find?_range_eq_none] at hf
    have hnot : ∀ j < 15, add_stops inode n name kaddr (260 * j) = false := fun j hj => by
      simpa using hf j hj
    have hle := le_nslots_of_passed hdim hn1 le_rfl hnot
    refine ⟨hp.page hd hn hk le_rfl hle hnot, fun he => ?_⟩
    have hm := hdim.le
    have hns := hdim.nslots
    omega
  | some j =>
    obtain ⟨hj, hmem, hmin⟩ := List.find?_range_eq_some.mp hf
    have hj15 := List.mem_range.mp hmem
    have hnot : ∀ i < j, add_stops inode n name kaddr (260 * i) = false := fun i hi => by
      simpa using hmin i hi
    have hle := le_nslots_of_passed hdim hn1 hj15.le hnot
    exact ⟨15 * n + j, slotPos_add hj15, hp.page hd hn hk hj15.le hle hnot,
      add_stops_at hd hdim hn hn1 hk hj15 hle hj⟩

end Page

/-- Clearing `de_inode` in memory. -/
theorem putLe32_zero (kaddr : Mem) (off a : Nat) :
    putLe32 kaddr off 0 a = kaddr a ∨ off ≤ a ∧ a < off + 4 ∧ putLe32 kaddr off 0 a = 0 := by
  by_cases h : a < off ∨ off + 4 ≤ a
  · exact Or.inl (putLe32_outside h)
  · refine Or.inr ⟨by omega, by omega, ?_⟩
    unfold putLe32
    have hcase : a = off ∨ a = off + 1 ∨ a = off + 2 ∨ a = off + 3 := by omega
    rcases hcase with rfl | rfl | rfl | rfl <;> simp

/-- At the end of the directory `de_inode` is zeroed, on the page of the slot behind the end. -/
theorem cleared_at_end {c : Ctx} {n p : Nat} (tick : Nat) (hpos : slotPos c.inode.nslots = (n, p)) :
    Cleared c { c with
      v := { c.v with tick := tick }
      inode := c.inode.setPage n (putLe32 · (p + GAS_MAX_NAME_LEN) 0) } := by
  refine ⟨⟨_, rfl⟩, ⟨_, rfl⟩, fun n' a => ?_⟩
  rw [hpos]
  by_cases hne : n' = n
  · subst hne
    rcases putLe32_zero (c.inode.pages n') (p + 256) a with he | ⟨h1, h2, he⟩
    · left
      simpa [Inode.setPage] using he
    · right
      exact ⟨rfl, h1, h2, by simpa [Inode.setPage] using he⟩
  · left
    simp [Inode.setPage, hne]

/-- One page past the end: it is blank, so its first record is free. -/
theorem add_stops_blank {inode : Inode} {P m : Nat} (hd : DirOk inode) (hdim : Dims inode P m)
    (name : List UInt8) {kaddr : Mem} (hk : ∀ a < 4096, kaddr a = inode.pages (P + 1) a) :
    de_inode kaddr 0 = 0 ∧
      (records PAGE_CACHE_SIZE).find? (add_stops inode (P + 1) name kaddr) = some 0 := by
  have hsize := hdim.size
  have hm := hdim.le
  have hzero : de_inode kaddr 0 = 0 := by
    refine le32_zero fun k hk4 => ?_
    have ha : 0 + 256 + k < 4096 := by omega
    rw [hk _ ha]
    exact hd.past _ _ (by omega) ha
  have hrec : records PAGE_CACHE_SIZE = 0 :: (List.range' 1 14).map (260 * ·) := rfl
  refine ⟨hzero, ?_⟩
  rw [hrec, List.find?_cons_of_pos]
  simp [add_stops, hzero]

/-- The outer loop.  It comes to the page `n` with the request `n`.  Behind a full last page it goes
on to the blank page, where the new record is the first one.  The induction is on the pages that are
left, and the invariant is that all slots on the pages in front are in use for other names. -/
theorem add_link_loop_spec {c0 : Ctx} (hd : DirOk c0.inode) {P m : Nat} (hdim : Dims c0.inode P m)
    {name : List UInt8} (hn : IsName name) (ino : Nat) :
    ∀ count n : Nat, PagesRead c0 n → n + count = P + 2 → n ≤ P + 1 →
      Passed c0.inode name (15 * n) → (n = P + 1 → m = 15) →
      AddScan c0 name ino (add_link_loop name ino count n
        { c0 with v := { c0.v with tick := c0.v.tick + n } })
  | 0, n, _, h, hle, _, _ => absurd h (by omega)
  | count + 1, n, hpages, hcount, hle, hp, hfull => by
    have ht1 : Ticked c0 { c0 with v := { c0.v with tick := c0.v.tick + n + 1 } } := ⟨_, rfl⟩
    rw [add_link_loop, gas_dir_get_page]
    dsimp only
    generalize hkaddr : Ctx.page_address
      { c0 with v := { c0.v with tick := c0.v.tick + n } } (c0.v.tick + n) n = kaddr
    have hk : ∀ a < 4096, kaddr a = c0.inode.pages n a := fun a ha => by
      rw [← hkaddr, page_address_of_lt ha]
    cases hr : c0.v.env.pgread (c0.v.tick + n) with
    | false => exact .unread _ ht1 n hp hr
    | true =>
      simp only [if_true]
      have hpages1 : PagesRead c0 (n + 1) := fun i hi => by
        rcases Nat.lt_succ_iff_lt_or_eq.mp hi with hlt | rfl
        · exact hpages i hlt
        · exact hr
      -- a slot of this page is found with its request
      have hslot : ∀ t p, slotPos t = (n, p) → PagesRead c0 (t / 15 + 1) ∧
          c0.v.tick + n + 1 = c0.v.tick + t / 15 + 1 := fun t p hpos => by
        have hn' : t / 15 = n := congrArg Prod.fst hpos
        rw [hn']
        exact ⟨hpages1, rfl⟩
      rcases Nat.lt_or_ge P n with hlt | hge
      · -- one page past the end: blank, so its first record is free
        obtain rfl : n = P + 1 := by omega
        have hm := hfull rfl
        have hlast : gas_last_byte c0.inode (P + 1) = 4096 := by
          rw [hdim.last, if_neg (by omega)]
        obtain ⟨hzero, hfind⟩ := add_stops_blank hd hdim name hk
        have hpos : slotPos c0.inode.nslots = (P + 1, 0) := by
          rw [hdim.nslots, hm]
          exact slotPos_add (n := P + 1) (j := 0) (by omega)
        rw [hfind]
        simp only [hlast, hzero, if_true]
        rw [if_neg (by omega)]
        have h : AddScan c0 name ino _ := .free _ ht1.cleared _ (Or.inr rfl)
          (by rw [hdim.nslots, hm]; exact hp : Passed c0.inode name c0.inode.nslots)
          (hslot _ _ hpos).1 (hslot _ _ hpos).2
        rw [hpos] at h
        exact h
      · have hfind := add_stops_find hd hdim hn (n := n) hge hk hp
        generalize (records PAGE_CACHE_SIZE).find?
          (add_stops c0.inode n name kaddr) = o at hfind
        cases o with
        | none =>
          exact add_link_loop_spec hd hdim hn ino count (n + 1) hpages1 (by omega) (by omega)
            hfind.1 fun h => hfind.2 (by omega)
        | some p =>
          obtain ⟨t, hpos, hpass, hcase⟩ := hfind
          by_cases hlb : p = gas_last_byte c0.inode n
          · rw [if_pos hlb] at hcase
            simp only [if_pos hlb]
            have hcl := cleared_at_end (c := c0) (c0.v.tick + n + 1) (hcase ▸ hpos)
            have h : AddScan c0 name ino _ := .free _ hcl t (Or.inr hcase) hpass
              (hslot t p hpos).1 (hslot t p hpos).2
            rw [hpos] at h
            exact h
          · rw [if_neg hlb] at hcase
            simp only [if_neg hlb]
            by_cases hde : de_inode kaddr p = 0
            · rw [if_pos hde] at hcase
              rw [if_pos hde]
              have h : AddScan c0 name ino _ := .free _ ht1.cleared t (Or.inl hcase) hpass
                (hslot t p hpos).1 (hslot t p hpos).2
              rw [hpos] at h
              exact h
            · rw [if_neg hde] at hcase
              rw [if_neg hde]
              obtain ⟨v, hv⟩ := hcase
              exact .present _ ht1 t v hv hpass

theorem gas_add_link_scan {c : Ctx} (hd : DirOk c.inode) {name : List UInt8} (hn : IsName name)
    (ino : Nat) : AddScan c name ino (gas_add_link c name ino) := by
  obtain ⟨P, m, hdim⟩ := hd.dims
  rw [gas_add_link, hdim.pages]
  exact add_link_loop_spec hd hdim hn ino (P + 2) 0 (fun i hi => absurd hi (Nat.not_lt_zero i))
    (by omega) (by omega) (fun s hs => absurd hs (by omega)) (by omega)

theorem gas_add_link_blockStep {c : Ctx} (hd : DirOk c.inode) {name : List UInt8}
    (hn : IsName name) (ino : Nat) : BlockStep c.v (gas_add_link c name ino).1.v := by
  have hscan := gas_add_link_scan hd hn ino
  generalize gas_add_link c name ino = r at hscan
  cases hscan with
  | unread c1 ht _ _ _ => exact ht.blockStep
  | present c1 ht _ _ _ _ => exact ht.blockStep
  | free c1 hc t _ _ _ _ =>
    obtain ⟨tick, hv⟩ := hc.vol
    have h1 : BlockStep c.v c1.v := by rw [hv]; exact ⟨_, _, _, tick, rfl⟩
    exact h1.trans (got_it_blockStep c1 _ _ name ino)

/-- The first free slot is the hole of the table.  `hole` is the abstract view of the place: the
first free slot, or the length of the table. -/
theorem Passed.hole {inode : Inode} {name : List UInt8} {t : Nat} (hp : Passed inode name t)
    (ht : inode.slots[t]? = some none ∨ t = inode.nslots) : hole inode.slots = t :=
  hole_eq_of (fun j hj => let ⟨e, he, _⟩ := hp j hj; ⟨e, he⟩)
    (ht.imp_right fun h => by rw [h, length_slots])

/-- **`gas_add_link` writes the entry into the first free slot**, in front of which the name does
not occur, or fails and leaves the directory as it is.  That the name is in no slot behind is not
checked by the source, and not said here. -/
theorem gas_add_link_spec {c : Ctx} (hd : DirOk c.inode) {name : List UInt8} (hn : IsName name)
    (ino : Nat) :
    let r := gas_add_link c name ino
    DirStep c.inode r.1.inode ∧
      ((∃ e, r.2 = some e ∧ Unchanged c.inode r.1.inode) ∨
        (r.2 = none ∧ Passed c.inode name (hole c.inode.slots) ∧
          Updated (hole c.inode.slots) (entryOf name ino) c.inode r.1.inode)) := by
  have hscan := gas_add_link_scan hd hn ino
  dsimp only
  generalize gas_add_link c name ino = r at hscan
  cases hscan with
  | unread c1 ht _ _ _ =>
    exact ⟨ht.cleared.dirStep, Or.inl ⟨_, rfl, ht.cleared.unchanged hd⟩⟩
  | present c1 ht t v hs hp =>
    exact ⟨ht.cleared.dirStep, Or.inl ⟨_, rfl, ht.cleared.unchanged hd⟩⟩
  | free c1 hc t ht hp _ _ =>
    have hun := hc.unchanged hd
    obtain ⟨hstep, ⟨e, he, hsame⟩ | ⟨he, hw, hsize⟩⟩ := got_it_spec (c := c1) (t := t) hn ino
    · refine ⟨hc.dirStep.trans hstep, Or.inl ⟨e, he, ?_⟩⟩
      have hun' := hsame.unchanged hun.ok
      exact ⟨hun'.ok, hun'.slots.trans hun.slots, fun hb => hun'.blank (hun.blank hb)⟩
    · have hns : c1.inode.nslots = c.inode.nslots := by
        rw [← length_slots, ← length_slots, hun.slots]
      have hle : t ≤ c1.inode.nslots := by
        rw [hns]
        rcases ht with h | h
        · exact (getElem?_slots_eq_some.mp h).1.le
        · omega
      have hup := hw.updated hun.ok hle hsize
      rw [hp.hole ht]
      refine ⟨hc.dirStep.trans hstep, Or.inr ⟨he, hp, hup.ok, fun s => ?_, ?_⟩⟩
      · rw [hup.getElem?, hun.slots]
      · exact fun hb => hup.blank (hun.blank hb)

/-! ## 4. The empty directory

The page that `gas_make_empty` writes, byte by byte. -/

theorem strcpy_outside {kaddr : Mem} {p a : Nat} {s : List UInt8}
    (h : a < p ∨ p + s.length + 1 ≤ a) : strcpy kaddr p s a = kaddr a :=
  strncpy_outside (by omega)

/-- A short string is read back. -/
theorem cstr_strcpy {kaddr : Mem} {p n : Nat} {s : List UInt8} (hz : (0 : UInt8) ∉ s)
    (hn : s.length + 1 ≤ n) : cstr (strcpy kaddr p s) p n = s := by
  have hbytes : ∀ i < s.length + 1, strcpy kaddr p s (p + i) = s.getD i 0 := by
    intro i hi
    rw [strcpy, strncpy, if_pos ⟨by omega, by omega⟩, cstr_ofList hz,
      List.take_of_length_le (by omega), Nat.add_sub_cancel_left]
  have hshort : cstr (strcpy kaddr p s) p (s.length + 1) = s :=
    cstr_of_bytes hz hbytes (by omega)
  rw [cstr_of_length_lt (n := s.length + 1) (by rw [hshort]; omega) hn, hshort]

/-- The two records.  `gas_make_empty` writes them with `strcpy` on a page of zeros, so their
closing bytes are NUL. -/
theorem empty_page_slots (ino dir : Nat) :
    slotAt (empty_page ino dir) 0 = entryOf dot ino ∧
      slotAt (empty_page ino dir) 260 = entryOf dotdot dir := by
  have hde : de_inode (empty_page ino dir) 0 = u32 ino := by
    have hle := le32_putLe32 (fun _ => 0) 256 ino
    rw [u32, ← hle]
    refine le32_congr fun k hk => ?_
    have ha : 0 + GAS_MAX_NAME_LEN + k = 256 + k := by show 0 + 256 + k = 256 + k; omega
    rw [ha]
    unfold empty_page
    rw [strcpy_outside (by left; show 256 + k < 260; omega),
      putLe32_outside (by left; show 256 + k < 260 + 256; omega),
      strcpy_outside (by right; show 0 + 1 + 1 ≤ 256 + k; omega)]
  have hde' : de_inode (empty_page ino dir) 260 = u32 dir := by
    rw [u32, ← le32_putLe32 (strcpy (putLe32 (fun _ => 0) GAS_MAX_NAME_LEN ino) 0 dot)
      (sizeof_gas_dir_entry + GAS_MAX_NAME_LEN) dir]
    refine le32_congr fun k hk => ?_
    unfold empty_page
    rw [strcpy_outside (by right; show 260 + 2 + 1 ≤ 260 + 256 + k; omega)]
  have hstr : cstr (empty_page ino dir) 0 256 = dot := by
    have h : cstr (empty_page ino dir) 0 256 =
        cstr (strcpy (putLe32 (fun _ => 0) GAS_MAX_NAME_LEN ino) 0 dot) 0 256 := by
      refine cstr_congr fun k hk => ?_
      unfold empty_page
      rw [strcpy_outside (by left; show 0 + k < 260; omega),
        putLe32_outside (by left; show 0 + k < 260 + 256; omega)]
    rw [h]
    exact cstr_strcpy (by decide) (by decide)
  have hstr' : cstr (empty_page ino dir) 260 256 = dotdot :=
    cstr_strcpy (by decide) (by decide)
  constructor
  · simp only [slotAt, hde, hstr, entryOf]
  · simp only [slotAt, hde', hstr', entryOf]

/-- The bytes that stay blank. -/
theorem empty_page_blank (ino dir a : Nat) (h : a = 255 ∨ a = 515 ∨ 520 ≤ a) :
    empty_page ino dir a = 0 := by
  unfold empty_page
  rw [strcpy_outside, putLe32_outside, strcpy_outside, putLe32_outside]
  · show a < 256 ∨ 256 + 4 ≤ a
    omega
  · right
    show 0 + 1 + 1 ≤ a
    omega
  · show a < 260 + 256 ∨ 260 + 256 + 4 ≤ a
    omega
  · show a < 260 ∨ 260 + 2 + 1 ≤ a
    omega

/-- A directory of one page with the two records. -/
theorem empty_dir {i : Inode} {ino dir : Nat} (hs : i.i_size = 520)
    (h0 : i.pages 0 = empty_page ino dir) (hp : ∀ n a, 1 ≤ n → a < 4096 → i.pages n a = 0) :
    DirOk i ∧ Blank i ∧ i.slots = [entryOf dot ino, entryOf dotdot dir] := by
  have hns : i.nslots = 2 := by
    rw [Inode.nslots, hs]
    rfl
  refine ⟨⟨⟨0, 2, by omega, by omega, hs⟩, fun t ht => ?_, fun n a hle ha => ?_⟩,
    fun n a h1 h2 => ?_, ?_⟩
  · rw [hns] at ht
    have hcase : t = 0 ∨ t = 1 := by omega
    rcases hcase with rfl | rfl
    · show i.pages 0 255 = 0
      rw [h0, empty_page_blank _ _ _ (by omega)]
    · show i.pages 0 515 = 0
      rw [h0, empty_page_blank _ _ _ (by omega)]
  · exact hp n a (by omega) ha
  · rcases Nat.eq_zero_or_pos n with rfl | hn
    · rw [h0, empty_page_blank _ _ _ (by omega)]
    · exact hp n a hn h2
  · obtain ⟨h1, h2⟩ := empty_page_slots ino dir
    rw [← h1, ← h2, ← h0, Inode.slots, hns]
    rfl

/-- **`gas_make_empty` makes the table of `.` and `..`** in a new inode, or fails and writes
nothing.  The inode has no page yet, and what its other pages would hold is blank. -/
theorem gas_make_empty_spec {c : Ctx} (hs : c.inode.i_size = 0)
    (hp : ∀ n a, 1 ≤ n → a < 4096 → c.inode.pages n a = 0) (dir : Nat) :
    let r := gas_make_empty c dir
    DirStep c.inode r.1.inode ∧
      ((∃ e, r.2 = some e ∧ SameDir c.inode r.1.inode) ∨
        (r.2 = none ∧ DirOk r.1.inode ∧ Blank r.1.inode ∧
          r.1.inode.slots = [entryOf dot c.inode.i_ino, entryOf dotdot dir])) := by
  have hmap := block_write_begin_mapStep { c with v := { c.v with tick := c.v.tick + 1 } } 0
    (2 * sizeof_gas_dir_entry) false
  unfold gas_make_empty
  dsimp only
  by_cases hm : c.v.env.mem c.v.tick = false
  · rw [if_pos hm]
    exact ⟨⟨_, _, _, _, _, rfl⟩, Or.inl ⟨_, rfl, rfl, rfl⟩⟩
  · rw [if_neg hm]
    generalize __block_write_begin { c with v := { c.v with tick := c.v.tick + 1 } } 0
      (2 * sizeof_gas_dir_entry) false = r at hmap
    obtain ⟨c1, _ | e⟩ := r
    · dsimp only at hmap ⊢
      have hino : c1.inode.i_ino = c.inode.i_ino := by obtain ⟨-, _, _, he⟩ := hmap; rw [he]
      have hsame := hmap.sameDir
      have hlt : c1.inode.i_size < 0 + 2 * sizeof_gas_dir_entry := by
        rw [hsame.1]
        show c.inode.i_size < 0 + 2 * 260
        omega
      have hcommit : (gas_dir_commit_chunk none { c1 with
            inode := c1.inode.setPage 0 fun _ => empty_page c1.inode.i_ino dir } 0
            (2 * sizeof_gas_dir_entry)).1 =
          { c1 with inode := { c1.inode.setPage 0 fun _ => empty_page c1.inode.i_ino dir with
              i_size := 0 + 2 * sizeof_gas_dir_entry } } := if_pos hlt
      rw [hcommit, ← hino]
      refine ⟨hmap.dirStep.trans ⟨_, _, _, _, _, rfl⟩, Or.inr ⟨rfl, empty_dir rfl ?_ ?_⟩⟩
      · exact Function.update_self 0 _ c1.inode.pages
      · intro n a hn ha
        show Function.update c1.inode.pages 0 _ n a = 0
        rw [Function.update_of_ne (by omega), hsame.2]
        exact hp n a hn ha
    · exact ⟨hmap.dirStep, Or.inl ⟨e, rfl, hmap.sameDir⟩⟩

end GasFs
