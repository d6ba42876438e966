/-
# What an operation on names asks for

An operation on names asks for pages and for blocks one after the other, and any request may fail.
Which of them decides is settled by the state in front of the call, and this file settles it:

* a name that one slot holds is found exactly when the page of its slot can be read, and the request
  for that page is the one with the number of the page (`gas_find_entry_of_read`,
  `gas_find_entry_of_unread`, `gas_find_entry_tick`);
* the functions that change a record differ from `gas_get_block` on its page in nothing that counts
  for the map (`got_it_asked`, `gas_set_link_asked`, `gas_delete_entry_asked`), so each fails exactly
  when the chunk is not ready.

`Fs.Asked` tells what the first chunk of a call leaves: its path is filled in the tree of its inode
and in no other, the free blocks are fewer by the slots filled, and the requests made are counted.  It
is all that a second chunk of the same call depends on, so the condition of the second can be told of
the state before the first (`Fs.Asked.ready_iff`).

None of this is about a particular call.  It is used for `gas_rename`, the one call that asks for
two chunks in two directories and for a third in the directory moved.
-/
import GasFs.Dir.Chunk
import GasFs.Namei.Space

namespace GasFs

open Bytes PtrTree SlotTable

/-! ## 1. The page of a record

Slot `t` lies on page `t / 15`.  A scan asks for the pages from 0 on, one request each, and stops at
the page where it finds the record; so the request that decides is `tick + t / 15`, if the name is
in no other slot. -/

/-- A scan that finds a record has asked for the page of the record last.  Each page asked for is
one request, whether it could be read or not. -/
theorem find_record_tick {test : Mem → Nat → Bool} {n' p : Nat} : ∀ {count n : Nat} {c : Ctx},
    (find_record test count n c).1 = some (n', p) →
      (find_record test count n c).2.v.tick + n = c.v.tick + n' + 1
  | 0, _, _, h => by simp [find_record] at h
  | count + 1, n, c, h => by
    have hrec := @find_record_tick test n' p count (n + 1)
      { c with v := { c.v with tick := c.v.tick + 1 } }
    dsimp only at hrec
    rw [find_record, gas_dir_get_page] at h ⊢
    cases hp : c.v.env.pgread c.v.tick with
    | false =>
      simp only [hp, Bool.false_eq_true, if_false] at h ⊢
      have hr := hrec h
      omega
    | true =>
      simp only [hp, if_true] at h ⊢
      cases hf : (records (gas_last_byte c.inode n)).find? (test (c.page_address c.v.tick n)) with
      | some q =>
        simp only [hf, Option.some.injEq, Prod.mk.injEq] at h ⊢
        omega
      | none =>
        simp only [hf] at h ⊢
        have hr := hrec h
        omega

section Record

variable {c : Ctx} {name : List UInt8} {t ino : Nat}

/-- What is on a page that can be read is found.  The pages in front of it may be unreadable: the
scan passes over them. -/
theorem gas_find_entry_of_read (hok : DirOk c.inode) (hu : Uniq c.inode.slots)
    (hn : IsName name) (hs : c.inode.slots[t]? = some (some (name, ino)))
    (hread : c.v.env.pgread (c.v.tick + t / 15) = true) :
    (gas_find_entry c name).1 = some (slotPos t) := by
  have hne : (gas_find_entry c name).1 ≠ none := by
    obtain ⟨hlt, hslot⟩ := getElem?_slots_eq_some.mp hs
    rw [gas_find_entry, find_record_eq (is_named_local name) hok, ne_eq, Option.map_eq_none_iff,
      List.find?_range_eq_none]
    intro h
    have ht := h t hlt
    rw [Bool.not_eq_true', Bool.and_eq_false_iff] at ht
    rcases ht with hp | hp
    · rw [slotPos] at hp
      rw [hread] at hp
      simp at hp
    · rw [(is_named_iff hn).mpr ⟨ino, hslot⟩] at hp
      simp at hp
  obtain ⟨⟨n, p⟩, hf⟩ := Option.ne_none_iff_exists'.mp hne
  obtain ⟨t', ino', hpos, hs'⟩ := gas_find_entry_some hok hn hf
  rw [hf, ← hpos, hu.slot_inj hs' hs]

/-- What is on a page that cannot be read is not. -/
theorem gas_find_entry_of_unread (hok : DirOk c.inode) (hu : Uniq c.inode.slots)
    (hn : IsName name) (hs : c.inode.slots[t]? = some (some (name, ino)))
    (hread : c.v.env.pgread (c.v.tick + t / 15) = false) : (gas_find_entry c name).1 = none := by
  rw [gas_find_entry, find_record_eq (is_named_local name) hok, Option.map_eq_none_iff,
    List.find?_range_eq_none]
  intro s hlt
  rw [Bool.not_eq_true', Bool.and_eq_false_iff]
  by_contra hno
  rw [not_or, Bool.not_eq_false, Bool.not_eq_false] at hno
  obtain ⟨ino', hslot⟩ := (is_named_iff hn).mp hno.2
  -- only the slot `t` has the name
  obtain rfl := hu.slot_inj (getElem?_slots_eq_some.mpr ⟨hlt, hslot⟩) hs
  rw [slotPos, hread] at hno
  exact Bool.false_ne_true hno.1

/-- The number of requests a successful scan has made. -/
theorem gas_find_entry_tick (h : (gas_find_entry c name).1 = some (slotPos t)) :
    (gas_find_entry c name).2.v.tick = c.v.tick + t / 15 + 1 := find_record_tick h

end Record

/-! ## 2. The chunk of a record

The record is changed on the page and committed, and the block of the page is asked for with
`gas_get_block`.  Only the latter can fail and only it can move a pointer, which is what `SameMap`
says of everything else. -/

/-- The volume is the same, and of the inode the pointers, the type and the number. -/
structure SameMap (c c' : Ctx) : Prop where
  vol : c'.v = c.v
  blkaddr : c'.inode.blkaddr = c.inode.blkaddr
  mode : c'.inode.i_mode = c.inode.i_mode
  ino : c'.inode.i_ino = c.inode.i_ino

/-- Nothing changed. -/
theorem SameMap.refl (c : Ctx) : SameMap c c := ⟨rfl, rfl, rfl, rfl⟩

/-- Equal pointers on an equal volume are equal trees. -/
theorem SameMap.val {c c' : Ctx} (h : SameMap c c') (q : List Nat) : c'.val q = c.val q := by
  rw [Ctx.val, Ctx.val, h.vol, h.blkaddr]

/-- What follows a turn of an inode and moves no pointer belongs to the turn. -/
theorem SameMap.ownStep {c c' c'' : Ctx} (h : SameMap c' c'') (hs : OwnStep c c') :
    OwnStep c c'' := by
  have hw := hs.withInode (i := c''.inode) h.blkaddr h.mode h.ino
  obtain ⟨v, inode, nr⟩ := c''
  obtain rfl : v = c'.v := h.vol
  exact ⟨hw.vol, hw.mode, hw.ino, ⟨hw.ok.geometry, hw.ok.padded, hw.ok.one, hw.ok.zone, hw.ok.used⟩,
    hw.fresh, hw.keep, hw.exact⟩

/-- On a page that was read, the chunk is the block.  The page is up to date, so the kernel reads
nothing in to fill the block. -/
theorem gas_dir_prepare_chunk_eq (c : Ctx) (t : Nat) :
    gas_dir_prepare_chunk c (PAGE_CACHE_SIZE * (slotPos t).1 + (slotPos t).2)
        sizeof_gas_dir_entry =
      ((gas_get_block c (t / 15) true).c, (gas_get_block c (t / 15) true).err) := by
  have hpage : (PAGE_CACHE_SIZE * (slotPos t).1 + (slotPos t).2) / PAGE_CACHE_SIZE = t / 15 := by
    have hle := slotPos_le t
    simp only [PAGE_CACHE_SIZE, slotPos] at hle ⊢
    omega
  unfold gas_dir_prepare_chunk __block_write_begin
  rw [hpage]
  generalize gas_get_block c (t / 15) true = r
  by_cases he : r.err = none
  · simp [he]
  · simp [he]

/-- Committing and touching a page moves no pointer. -/
theorem commit_sameMap (c : Ctx) (n : Nat) (f : Mem → Mem) (pos len : Nat) :
    SameMap c (touch (gas_dir_commit_chunk none { c with inode := c.inode.setPage n f } pos len).1) := by
  rw [gas_dir_commit_chunk_eq]
  exact ⟨rfl, rfl, rfl, rfl⟩

/-- A new time moves no pointer. -/
theorem touch_sameMap (c : Ctx) : SameMap c (touch c) := ⟨rfl, rfl, rfl, rfl⟩

section Asked

variable (c : Ctx) (t ino : Nat) (name : List UInt8)

/-- A record written: the error is that of `gas_get_block`, and so is the map. -/
theorem got_it_asked :
    SameMap (gas_get_block c (t / 15) true).c
        (got_it c (slotPos t).1 (slotPos t).2 name ino).1 ∧
      (got_it c (slotPos t).1 (slotPos t).2 name ino).2 = (gas_get_block c (t / 15) true).err := by
  unfold got_it
  dsimp only
  rw [gas_dir_prepare_chunk_eq]
  generalize gas_get_block c (t / 15) true = r
  obtain ⟨c1, _ | e, m, new⟩ := r
  · exact ⟨commit_sameMap c1 _ _ _ _, rfl⟩
  · exact ⟨SameMap.refl c1, rfl⟩

/-- A record cleared, in the same terms. -/
theorem gas_delete_entry_asked :
    SameMap (gas_get_block c (t / 15) true).c (gas_delete_entry c (slotPos t).1 (slotPos t).2).1 ∧
      (gas_delete_entry c (slotPos t).1 (slotPos t).2).2 = (gas_get_block c (t / 15) true).err := by
  unfold gas_delete_entry
  dsimp only
  rw [gas_dir_prepare_chunk_eq]
  generalize gas_get_block c (t / 15) true = r
  obtain ⟨c1, _ | e, m, new⟩ := r
  · exact ⟨commit_sameMap c1 _ _ _ _, rfl⟩
  · exact ⟨touch_sameMap c1, rfl⟩

end Asked

/-! ## 3. What a chunk leaves to the next

The condition for a chunk is about null slots, free blocks and the next requests.  All three can be
computed from the state before the first chunk: the slots filled are those on the path of the first,
and the rest are counts. -/

/-- Whether a chunk is ready is told by the null slots, so it can be told of an earlier state: one
in which the slots on the path `filled` were still to be filled.  A slot on both paths is no longer
null for the second chunk, and a slot on neither is as it was. -/
theorem ready_congr {c c' : Ctx} {filled : List Nat} (hg : TreeGeometry c.v)
    (hv : BlockStep c.v c'.v)
    (hnull : ∀ q, shape.IsPath q → (c'.val q = 0 ↔ c.val q = 0 ∧ ¬q <+: filled))
    (page free tick : Nat) :
    c'.ChunkReady page [] free tick ↔ c.ChunkReady page filled free tick := by
  by_cases hlt : page < c.v.sbi.s_nblocks
  · have ho := block_to_path_isLeaf hg (b := page) fun h =>
      absurd ((block_to_path_eq_nil_iff hg.toGeometry).mp h) (Nat.not_le_of_lt hlt)
    have hlack : c'.lacking (block_to_path c.v page) [] =
        c.lacking (block_to_path c.v page) filled := by
      rw [lacking_nil]
      refine List.countP_congr fun l hl => ?_
      have hl' := List.mem_range.mp hl
      have hpath := isPath_take ho.1 (l := l + 1) (by omega) (by omega)
      simp only [beq_iff_eq, Bool.and_eq_true, Bool.not_eq_true', hnull _ hpath,
        ← Bool.not_eq_true, List.isPrefixOf_iff_prefix]
    constructor
    · rintro ⟨hrange, hreads, hroom⟩
      rw [block_to_path_step hv, hlack] at hroom
      rw [block_to_path_step hv, Ctx.path_reads, hlack, hv.env] at hreads
      exact ⟨hlt, hreads, hroom⟩
    · rintro ⟨hrange, hreads, hroom⟩
      refine ⟨by rw [hv.sbi]; exact hlt, ?_, ?_⟩
      · rw [block_to_path_step hv, Ctx.path_reads, hlack, hv.env]
        exact hreads
      · rw [block_to_path_step hv, hlack]
        exact hroom
  · exact iff_of_false (fun h => hlt (by rw [← hv.sbi]; exact h.range)) fun h => hlt h.range

/-- The requests made before do not matter. -/
theorem ready_later (c : Ctx) (t page free tick : Nat) (filled : List Nat) :
    Ctx.ChunkReady { c with v := { c.v with tick := t } } page filled free tick ↔
      c.ChunkReady page filled free tick :=
  ⟨fun h => ⟨h.range, h.reads, h.room⟩, fun h => ⟨h.range, h.reads, h.room⟩⟩

/-- What an operation has made of the file system `d` once it has asked, with the request `tick`,
for the chunk of the page `page` of the inode `k`; `ok` tells whether it got it.  A request that was
refused leaves the slots as they were, and then `ok` is `false`. -/
structure Fs.Asked (d d' : Fs Nat) (k page tick : Nat) (ok : Bool) : Prop where
  vol : BlockStep d.vol d'.vol
  sound : d'.Sound
  null : ∀ j q, shape.IsPath q →
    (d'.slot j q = 0 ↔ d.slot j q = 0 ∧ ¬(ok = true ∧ j = k ∧ q <+: block_to_path d.vol page))
  free : d'.vol.free.card +
    (if ok = true then (d.ctx k).missing (block_to_path d.vol page) else 0) = d.vol.free.card
  tick : d'.vol.tick = tick + (d.ctx k).chunk_requests page [] tick

/-- The inode is in core, and of a type that has a tree.  Devices and fifos have no tree: their
pointers hold something else. -/
def Fs.HasTree (d : Fs Nat) (k : Nat) : Prop := ∃ i, d.inodes k = some i ∧ has_blocks i.i_mode = true

theorem has_blocks_of_dir {mode : BitVec 16} (h : S_ISDIR mode = true) : has_blocks mode = true := by
  rw [has_blocks, h, Bool.or_true, Bool.true_or]

/-- A directory has a tree. -/
theorem Fs.hasTree_of_isDir {d : Fs Nat} {dir : Nat} (h : d.isDir dir = true) : d.HasTree dir := by
  obtain ⟨i, hi⟩ := Fs.isDir_some h
  rw [Fs.isDir_of hi, Bool.and_eq_true] at h
  exact ⟨i, hi, has_blocks_of_dir h.1⟩

section Fs

variable {d d' : Fs Nat} {k j page tick : Nat} {ok : Bool}

/-- A directory that was scanned, and the record behind its end perhaps cleared. -/
theorem Cleared.asked {c c1 : Ctx} (h : Cleared c c1) : SameMap { c with v := c1.v } c1 ∧
    ∃ t, c1.v = { c.v with tick := t } := by
  obtain ⟨pages, hi⟩ := h.inode
  obtain ⟨t, hv⟩ := h.vol
  refine ⟨⟨rfl, ?_, ?_, ?_⟩, t, hv⟩
  · rw [hi]
  · rw [hi]
  · rw [hi]

/-- **A chunk of an inode is asked for**, after a scan, by a function that leaves the map as
`gas_get_block` does. -/
theorem Fs.Sound.asked (h : d.Sound) (hk : d.HasTree k) {c1 c2 : Ctx} (h1 : Cleared (d.ctx k) c1)
    (h2 : SameMap (gas_get_block c1 page true).c c2) :
    d.Asked (d.set k c2) k page c1.v.tick (gas_get_block c1 page true).err.isNone ∧
      ((gas_get_block c1 page true).err = none ↔
        (d.ctx k).ChunkReady page [] d.vol.free.card c1.v.tick) := by
  obtain ⟨i, hk, hb⟩ := hk
  obtain ⟨hsame, t, hv⟩ := h1.asked
  have hctx : d.ctx k = ⟨d.vol, i, 0⟩ := by rw [Fs.ctx, Fs.inode_of hk]
  have hstep1 : OwnStep ⟨d.vol, i, 0⟩ c1 := by
    have hticked : Ticked ⟨d.vol, i, 0⟩ { d.ctx k with v := c1.v } := ⟨t, by rw [hctx, hv]; rfl⟩
    exact hsame.ownStep (hticked.same.ownStep (h.treeOk hk hb))
  obtain ⟨hready, hasked⟩ := gas_get_block_chunk hstep1.ok page
  have hstep := h2.ownStep (hstep1.trans hasked.step)
  -- the scan has moved no pointer
  have hval1 : ∀ q, c1.val q = (d.ctx k).val q := fun q => by
    rw [hsame.val, Ctx.val, Ctx.val, hv]
  have hpath : block_to_path c1.v page = block_to_path d.vol page := by rw [hv]; rfl
  have hfree1 : c1.v.free = d.vol.free := by rw [hv]; rfl
  have hmiss : c1.missing (block_to_path d.vol page) = (d.ctx k).missing (block_to_path d.vol page) := by
    simp only [Ctx.missing, hval1]
  have hslot : ∀ q, (d.set k c2).slot k q = (gas_get_block c1 page true).c.val q := fun q => by
    rw [Fs.slot_of_blocks (d := d.set k c2) (i := c2.inode) (Function.update_self _ _ _)
      (by rw [hstep.mode]; exact hb)]
    exact h2.val q
  have hreq : c1.chunk_requests page [] c1.v.tick = (d.ctx k).chunk_requests page [] c1.v.tick := by
    have henv : c1.v.env = d.vol.env := by rw [hv]; rfl
    simp only [Ctx.chunk_requests, Ctx.path_reads, lacking_nil, Fs.ctx_v, hpath, hmiss, henv]
  refine ⟨⟨hstep.vol, h.own hk hb hstep, fun j q hq => ?_, ?_, ?_⟩, ?_⟩
  · rcases eq_or_ne j k with rfl | hne
    · rw [hslot, hasked.null q hq, hval1, hpath, hctx, d.slot_of_blocks hk hb]
      simp
    · rw [h.others hk hb hstep hne hq]
      simp [hne]
  · rw [Fs.set_vol, h2.vol, ← hmiss, ← hfree1, ← hpath]
    exact hasked.free
  · rw [Fs.set_vol, h2.vol, hasked.tick, hreq]
  · rw [hready, hfree1]
    have hg : TreeGeometry (d.ctx k).v := h.geometry
    have hnull : ∀ q, shape.IsPath q → (c1.val q = 0 ↔ (d.ctx k).val q = 0 ∧ ¬q <+: []) :=
      fun q hq => by
        rw [hval1, List.prefix_nil]
        exact (and_iff_left hq.ne_nil).symm
    exact ready_congr hg (by rw [hctx]; exact hstep1.vol) hnull page _ _

/-- A later change of inodes alone does not matter. -/
theorem Fs.Asked.congr {d'' : Fs Nat} (h : d.Asked d' k page tick ok) (hvol : d''.vol = d'.vol)
    (hslot : ∀ j q, d''.slot j q = d'.slot j q) : d.Asked d'' k page tick ok where
  vol := by rw [hvol]; exact h.vol
  sound := (h.sound.congr (by rw [hvol]; exact h.sound.geometry) (by rw [hvol]; exact h.sound.padded)
    (fun _ => by rw [hvol]) (fun _ => by rw [hvol]) fun j q _ => hslot j q).1
  null j q hq := by rw [hslot]; exact h.null j q hq
  free := by rw [hvol]; exact h.free
  tick := by rw [hvol]; exact h.tick

/-- **Whether the second chunk is ready is told of the state before the first.** -/
theorem Fs.Asked.ready_iff (h : d.Asked d' k page tick ok) (hd : d.Sound) (hj : d.HasTree j)
    (hj' : d'.HasTree j) (page' tick' : Nat) :
    (d'.ctx j).ChunkReady page' [] d'.vol.free.card tick' ↔
      (d.ctx j).ChunkReady page' (if ok = true ∧ j = k then block_to_path d.vol page else [])
        (d.vol.free.card - if ok = true then (d.ctx k).missing (block_to_path d.vol page) else 0)
        tick' := by
  obtain ⟨i, hj, hb⟩ := hj
  obtain ⟨i', hj', hb'⟩ := hj'
  have hfree : d'.vol.free.card = d.vol.free.card -
      if ok = true then (d.ctx k).missing (block_to_path d.vol page) else 0 := by
    have hf := h.free
    omega
  have hval : ∀ q, (d.ctx j).val q = d.slot j q := fun q => by
    rw [Fs.ctx, Fs.inode_of hj, d.slot_of_blocks hj hb]
  have hval' : ∀ q, (d'.ctx j).val q = d'.slot j q := fun q => by
    rw [Fs.ctx, Fs.inode_of hj', d'.slot_of_blocks hj' hb']
  rw [hfree]
  have hg : TreeGeometry (d.ctx j).v := hd.geometry
  have hv : BlockStep (d.ctx j).v (d'.ctx j).v := h.vol
  refine ready_congr hg hv (fun q hq => ?_) page' _ tick'
  rw [hval, hval', h.null j q hq, ← and_assoc (a := ok = true)]
  by_cases hc : ok = true ∧ j = k
  · rw [if_pos hc]
    simp [hc]
  · rw [if_neg hc, List.prefix_nil]
    simp [hc, hq.ne_nil]

end Fs

/-! ## 4. A name that one slot holds

`Fs.NameAt` is the state in which a scan for a name is understood, and `Fs.NameAt.find` is the scan.
The state survives a change of the request counter, so several scans can follow one another. -/

/-- The file system when the next request is the one with this number.  The answers of the kernel
are a function of this number, so it stands for the time. -/
def Fs.atRequest (d : Fs Nat) (tick : Nat) : Fs Nat :=
  { d with vol := { d.vol with tick := tick } }

/-- On a sound file system the slot `t` of a directory holds the name, for the inode `ino`, and no
other slot of the directory has it.  The requests for pages are the only thing that is left open. -/
structure Fs.NameAt (d : Fs Nat) (dir : Nat) (name : List UInt8) (t ino : Nat) : Prop where
  sound : d.Sound
  tree : d.HasTree dir
  ok : DirOk (d.inode dir)
  uniq : Uniq (d.inode dir).slots
  isName : IsName name
  slot : (d.inode dir).slots[t]? = some (some (name, ino))

section NameAt

variable {d : Fs Nat} {dir t ino : Nat} {name : List UInt8}

/-- A sound file system stays so when requests are made. -/
theorem Fs.Sound.atRequest (h : d.Sound) (tick : Nat) : (d.atRequest tick).Sound :=
  ⟨{ h.geometry with }, h.padded, h.one, h.zone, h.used⟩

/-- So does the slot with the name. -/
theorem Fs.NameAt.atRequest (h : d.NameAt dir name t ino) (tick : Nat) :
    (d.atRequest tick).NameAt dir name t ino :=
  ⟨h.sound.atRequest tick, h.tree, h.ok, h.uniq, h.isName, h.slot⟩

/-- **The scan for the name**: it finds the slot, with the request for its page, or nothing. -/
theorem Fs.NameAt.find (h : d.NameAt dir name t ino) :
    if d.vol.env.pgread (d.vol.tick + t / 15) = true then
      gas_find_entry (d.ctx dir) name =
        (some (slotPos t), (d.atRequest (d.vol.tick + t / 15 + 1)).ctx dir)
    else (gas_find_entry (d.ctx dir) name).1 = none := by
  cases hread : d.vol.env.pgread (d.vol.tick + t / 15) with
  | false =>
    rw [if_neg Bool.false_ne_true]
    exact gas_find_entry_of_unread (c := d.ctx dir) h.ok h.uniq h.isName h.slot hread
  | true =>
    rw [if_pos rfl]
    have hf := gas_find_entry_of_read (c := d.ctx dir) h.ok h.uniq h.isName h.slot hread
    have htick := gas_find_entry_tick hf
    obtain ⟨tick, hc⟩ := gas_find_entry_ticked (d.ctx dir) name
    rw [hc] at htick
    obtain rfl : tick = d.vol.tick + t / 15 + 1 := htick
    exact Prod.ext hf hc

end NameAt

end GasFs
